import Comex.Cluster.Ownership

/-!
# A cluster in which messages are lost

A message is lost when it cannot be posted, when `COMEX_do_verb` has no memory for
it, or when `COMEX_page_receive` has none for a group; the last leaves the list's
mutex locked, and the thread of `COMEX_wq` waits for it for good at the next reply.
Nothing is sent again.  Since a message may be processed at any later time, losing
one is never processing it: a run with losses is a run without, whose flight has the
lost messages too.

## Main definitions

* `Lossy`, `LossyStep` — the cluster, its failures and what they leave behind.
* `ledger` — the places of a page, the lost messages among them.

## Main results

* `follow` — a cluster without failures can follow every step.
* `reach_ledger` — **every page is at exactly one place or in exactly one lost message.**
* `lost_forever`, `locked_forever`, `blocked_forever` — what a failure ends.
-/

namespace Comex

open Ledger

/-- A cluster and what failures have left behind. -/
structure Lossy (ι : Type) where
  cluster : Cluster ι
  /-- The free lists whose `mutex_FG` stays locked. -/
  locked : ι → ℤ → Bool
  /-- The nodes whose `COMEX_wq` waits for such a mutex. -/
  blocked : ι → Bool
  /-- History: the lost messages. -/
  lost : List (Message ι)

/-- A step or a failure. -/
inductive LossyStep (ι : Type)
  /-- A step in which nothing fails. -/
  | act (a : ClusterStep ι)
  /-- The `k`-th message is not posted, or `COMEX_do_verb` gets no memory for it. -/
  | lose (k : ℕ)
  /-- `COMEX_page_receive` gets no memory for the `k`-th message. -/
  | oom (k : ℕ)
  /-- `COMEX_page_receive` waits for the mutex of the list the `k`-th message is for. -/
  | wait (k : ℕ)

section Receiver

variable {ι : Type} (net : Network ι) (msg : Message ι)

/-- The node that processes a message. -/
def Message.receiver : ι := net.peer msg.src msg.cb

/-- `ID_to_CB` of its sender there. -/
def Message.connection : ℤ := net.idToCB (msg.receiver net) msg.src

/-- Whether a message is a `PAGE_RPLY`. -/
def Message.isRply : Bool :=
  match msg.body with
  | .pageRply _ _ => true
  | _ => false

/-- Whether a message is a `PAGE_RPLY` with a block. -/
def Message.lends : Bool :=
  match msg.body with
  | .pageRply pageNO _ => 0 ≤ pageNO
  | _ => false

end Receiver

namespace Lossy

variable {ι : Type} [DecidableEq ι]

omit [DecidableEq ι] in
/-- The receiver's `COMEX_wq` takes a message up, and `mutex_FG` is free if it needs it. -/
def Taken (net : Network ι) (s : Lossy ι) (msg : Message ι) : Prop :=
  s.blocked (msg.receiver net) = false ∧
    (msg.isRply = true → s.locked (msg.receiver net) (msg.connection net) = false)

instance (net : Network ι) (s : Lossy ι) (msg : Message ι) : Decidable (s.Taken net msg) :=
  inferInstanceAs (Decidable (_ ∧ _))

omit [DecidableEq ι] in
/-- No mutex holds a step up; `COMEX_move_to_Remote` gives up at one that is locked. -/
def Ready (net : Network ι) (s : Lossy ι) : ClusterStep ι → Prop
  | .request i d => s.locked i d = false
  | .takePage i d => s.locked i d = false
  | .doWork k => ∀ msg ∈ s.cluster.flight[k]?, s.Taken net msg
  | _ => True

instance (net : Network ι) (s : Lossy ι) : (a : ClusterStep ι) → Decidable (s.Ready net a)
  | .request i d => inferInstanceAs (Decidable (s.locked i d = false))
  | .takePage i d => inferInstanceAs (Decidable (s.locked i d = false))
  | .doWork k => inferInstanceAs (Decidable (∀ msg ∈ s.cluster.flight[k]?, s.Taken net msg))
  | .freeToRemote _ _ _ => inferInstanceAs (Decidable True)
  | .moveToCOMEX _ => inferInstanceAs (Decidable True)
  | .freeLocal _ _ => inferInstanceAs (Decidable True)

omit [DecidableEq ι] in
/-- The `k`-th message is gone. -/
def drop (s : Lossy ι) (k : ℕ) (msg : Message ι) : Lossy ι :=
  { s with
    cluster := { s.cluster with flight := s.cluster.flight.eraseIdx k }
    lost := s.lost ++ [msg] }

/-- One step, if it is enabled. -/
def step (net : Network ι) (s : Lossy ι) : LossyStep ι → Option (Lossy ι)
  | .act a => if s.Ready net a then (s.cluster.step net a).map fun c => { s with cluster := c }
    else none
  | .lose k => s.cluster.flight[k]?.map fun msg => s.drop k msg
  | .oom k => s.cluster.flight[k]?.bind fun msg =>
    if s.Taken net msg ∧ msg.lends = true then
      some { s.drop k msg with
        locked := Cluster.set₂ s.locked (msg.receiver net) (msg.connection net) true }
    else none
  | .wait k => s.cluster.flight[k]?.bind fun msg =>
    if s.blocked (msg.receiver net) = false ∧ msg.isRply = true ∧
        s.locked (msg.receiver net) (msg.connection net) = true then
      some { s.drop k msg with blocked := Function.update s.blocked (msg.receiver net) true }
    else none

/-- The runs of a cluster with failures. -/
def machine (net : Network ι) : Machine (Lossy ι) (LossyStep ι) where
  init s := Cluster.Start net s.cluster ∧ (∀ i d, s.locked i d = false) ∧
    (∀ i, s.blocked i = false) ∧ s.lost = []
  step s a s' := s.step net a = some s'

/-- The states of a cluster, whatever fails and when. -/
abbrev Reach (net : Network ι) (s : Lossy ι) : Prop :=
  Machine.Reach (machine net) Machine.free s

/-- The states a cluster goes on to. -/
abbrev Later (net : Network ι) (s t : Lossy ι) : Prop :=
  Machine.Reach ((machine net).since s) Machine.free t

/-- How often page `p` of node `m` is at each place; `none` are the lost messages. -/
def ledger (net : Network ι) (s : Lossy ι) (m : ι) (p : ℤ) : Option (Cluster.Place ι) → ℕ
  | some pl => s.cluster.holdings net m p pl
  | none => (s.lost.flatMap (Message.pagesOf m)).count p +
      (s.lost.flatMap (Message.freedOf net m)).count p

/-! ### A cluster without failures follows -/

section Follow

variable {net : Network ι} {s s' : Lossy ι} {c : Cluster ι}

/-- The second cluster differs in its flight, which has the lost messages as well. -/
def Follows (c : Cluster ι) (lost : List (Message ι)) (d : Cluster ι) : Prop :=
  ∃ flight : List (Message ι), d = { c with flight := flight } ∧ flight.Perm (c.flight ++ lost)

/-- What processing a message adds to the flight does not depend on the flight. -/
theorem process_flight (net : Network ι) (c : Cluster ι) (msg : Message ι) :
    ∃ (d : Cluster ι) (reply : List (Message ι)), ∀ flight,
      Cluster.process net { c with flight := flight } msg =
        { d with flight := flight ++ reply } := by
  cases hbody : msg.body with
  | pageRqst =>
    refine ⟨Cluster.process net c msg, [⟨msg.receiver net, msg.connection net, .pageRply
      ((c.buddy (msg.receiver net)).pagesRequest (net.refill (msg.receiver net))).1.1
      ((c.buddy (msg.receiver net)).pagesRequest (net.refill (msg.receiver net))).1.2⟩],
      fun flight => ?_⟩
    simp only [Cluster.process, hbody, Message.receiver, Message.connection]
  | pageRply pageNO size =>
    refine ⟨Cluster.process net c msg, [], fun flight => ?_⟩
    simp only [Cluster.process, hbody, List.append_nil]
  | pageFree f =>
    refine ⟨Cluster.process net c msg, [], fun flight => ?_⟩
    simp only [Cluster.process, hbody, List.append_nil]

omit [DecidableEq ι] in
theorem perm_concat {flight flight' lost : List (Message ι)} (h : flight'.Perm (flight ++ lost))
    (sent : List (Message ι)) : (flight' ++ sent).Perm (flight ++ sent ++ lost) := by
  rw [List.append_assoc]
  exact (h.append_right sent).trans
    ((List.append_assoc flight lost sent).symm ▸ (List.perm_append_comm.append_left flight))

omit [DecidableEq ι] in
/-- A message in flight is in flight in the other cluster too. -/
theorem exists_eraseIdx {flight flight' lost : List (Message ι)} {k : ℕ} {msg : Message ι}
    (h : flight'.Perm (flight ++ lost)) (hk : flight[k]? = some msg) :
    ∃ j, flight'[j]? = some msg ∧ (flight'.eraseIdx j).Perm (flight.eraseIdx k ++ lost) := by
  obtain ⟨hlt, hmsg⟩ := List.getElem?_eq_some_iff.mp hk
  have hmem : msg ∈ flight' := h.mem_iff.mpr (List.mem_append_left _ (hmsg ▸ List.getElem_mem hlt))
  obtain ⟨j, hj, hjmsg⟩ := List.getElem_of_mem hmem
  refine ⟨j, List.getElem?_eq_some_iff.mpr ⟨hj, hjmsg⟩, ?_⟩
  have h1 := List.getElem_cons_eraseIdx_perm hj
  have h2 := (List.getElem_cons_eraseIdx_perm hlt).append_right lost
  rw [hjmsg] at h1
  rw [hmsg] at h2
  exact List.Perm.cons_inv ((h1.trans h).trans h2.symm)

/-- A step of one cluster is one of the other: what is lost lies untouched among the messages of
the second, and a message that the first processes is found there, at another index. -/
theorem follow_act {c c' d : Cluster ι} {lost : List (Message ι)} (h : Follows c lost d)
    {a : ClusterStep ι} (hs : c.step net a = some c') :
    ∃ b d', d.step net b = some d' ∧ Follows c' lost d' := by
  obtain ⟨flight, rfl, hperm⟩ := h
  cases a with
  | request i e =>
    simp only [Cluster.step, Option.some.injEq] at hs
    subst hs
    refine ⟨.request i e, _, rfl, _, rfl, ?_⟩
    simp only
    split
    · exact perm_concat hperm _
    · exact hperm
  | takePage i e =>
    simp only [Cluster.step] at hs
    split at hs
    swap
    · exact absurd hs (by simp)
    next hpos =>
    obtain ⟨⟨q, g⟩, hget, rfl⟩ := Option.map_eq_some_iff.mp hs
    refine ⟨.takePage i e, _, ?_, flight, rfl, hperm⟩
    simp only [Cluster.step, if_pos hpos, hget, Option.map_some]
  | freeToRemote i e q =>
    simp only [Cluster.step] at hs
    split at hs
    swap
    · exact absurd hs (by simp)
    next hq =>
    rw [Option.some.injEq] at hs
    subst hs
    refine ⟨.freeToRemote i e q, _, ?_, _, rfl, perm_concat hperm _⟩
    simp only [Cluster.step, if_pos hq]
  | doWork k =>
    -- the same message, at its index in the other flight
    obtain ⟨msg, hk, rfl⟩ := Option.map_eq_some_iff.mp hs
    obtain ⟨j, hj, herase⟩ := exists_eraseIdx hperm hk
    obtain ⟨c', reply, hreply⟩ := process_flight net c msg
    refine ⟨.doWork j, Cluster.process net { c with flight := flight.eraseIdx j } msg, ?_,
      flight.eraseIdx j ++ reply, ?_, ?_⟩
    · simp only [Cluster.step, hj, Option.map_some]
    · rw [hreply, hreply]
    · rw [hreply]
      exact perm_concat herase reply
  | moveToCOMEX m =>
    cases hr : (c.buddy m).rmqueueSmallest 0 with
    | mk o b =>
      simp only [Cluster.step, hr] at hs
      cases o with
      | none =>
        rw [Option.some.injEq] at hs
        subst hs
        refine ⟨.moveToCOMEX m, _, ?_, flight, rfl, hperm⟩
        simp only [Cluster.step, hr]
      | some q =>
        simp only [Option.some.injEq] at hs
        subst hs
        refine ⟨.moveToCOMEX m, _, ?_, flight, rfl, hperm⟩
        simp only [Cluster.step, hr]
  | freeLocal m q =>
    simp only [Cluster.step] at hs
    split at hs
    swap
    · exact absurd hs (by simp)
    next hq =>
    rw [Option.some.injEq] at hs
    subst hs
    refine ⟨.freeLocal m q, _, ?_, flight, rfl, hperm⟩
    simp only [Cluster.step, if_pos hq]

/-- **A cluster without failures can follow every step**: it does the same, or nothing where a
message is lost. -/
theorem follow {d : Cluster ι} (h : Follows s.cluster s.lost d) {a : LossyStep ι}
    (hs : s.step net a = some s') : Follows s'.cluster s'.lost d ∨
      ∃ b d', d.step net b = some d' ∧ Follows s'.cluster s'.lost d' := by
  -- a lost message stays in the other flight
  have hdrop : ∀ k msg, s.cluster.flight[k]? = some msg →
      Follows (s.drop k msg).cluster (s.drop k msg).lost d := by
    intro k msg hk
    obtain ⟨flight, rfl, hperm⟩ := h
    obtain ⟨hlt, rfl⟩ := List.getElem?_eq_some_iff.mp hk
    refine ⟨flight, rfl, hperm.trans ?_⟩
    simp only [drop]
    apply ((List.getElem_cons_eraseIdx_perm hlt).symm.append_right s.lost).trans
    rw [← List.append_assoc, List.cons_append]
    exact (List.perm_append_singleton _ _).symm
  cases a with
  | act a =>
    simp only [step] at hs
    split at hs
    swap
    · exact absurd hs (by simp)
    obtain ⟨c, hc, rfl⟩ := Option.map_eq_some_iff.mp hs
    exact Or.inr (follow_act h hc)
  | lose k =>
    obtain ⟨msg, hk, rfl⟩ := Option.map_eq_some_iff.mp hs
    exact Or.inl (hdrop k msg hk)
  | oom k =>
    obtain ⟨msg, hk, hs⟩ := Option.bind_eq_some_iff.mp hs
    split at hs
    swap
    · exact absurd hs (by simp)
    rw [← Option.some.inj hs]
    exact Or.inl (hdrop k msg hk)
  | wait k =>
    obtain ⟨msg, hk, hs⟩ := Option.bind_eq_some_iff.mp hs
    split at hs
    swap
    · exact absurd hs (by simp)
    rw [← Option.some.inj hs]
    exact Or.inl (hdrop k msg hk)

/-- Every run with losses is one without that has the lost messages in flight. -/
theorem Reach.follows (h : Reach net s) :
    ∃ d, Cluster.Reach net d ∧ Follows s.cluster s.lost d := by
  refine Machine.Reach.simulate (N := Cluster.machine net)
    (R := fun s d => Follows s.cluster s.lost d) h (fun s h0 => ?_)
    fun s a s' d _ hd hs => follow hd hs
  obtain ⟨hstart, -, -, hlost⟩ := h0
  exact ⟨s.cluster, hstart, s.cluster.flight, rfl, by rw [hlost, List.append_nil]⟩

end Follow

/-! ### Where the pages are -/

section Pages

variable {net : Network ι} {s t : Lossy ι} {m : ι} {p : ℤ}

theorem ledger_none : s.ledger net m p none =
    (s.lost.flatMap (Message.pagesOf m)).count p +
      (s.lost.flatMap (Message.freedOf net m)).count p := rfl

omit [DecidableEq ι] in
theorem count_of_perm {flight flight' lost : List (Message ι)}
    (h : flight'.Perm (flight ++ lost)) (pages : Message ι → List ℤ) (p : ℤ) :
    (flight.flatMap pages).count p + (lost.flatMap pages).count p =
      (flight'.flatMap pages).count p := by
  rw [(h.flatMap_right pages).count_eq p, List.flatMap_append, List.count_append]

/-- The ledger with the replies that are lost taken out. -/
def replied (net : Network ι) (s : Lossy ι) (d : Cluster ι) (m : ι) (p : ℤ) :
    Option (Cluster.Place ι) → ℕ
  | none => (s.lost.flatMap (Message.pagesOf m)).count p
  | some .pageRply => s.cluster.holdings net m p .pageRply
  | some pl => d.holdings net m p pl

/-- The replies that are lost are taken out of those in flight: the ledger of the cluster without
failures counts them with the others, and this one counts them apart. -/
theorem move_replied {d : Cluster ι} (h : Follows s.cluster s.lost d) (m : ι) (p : ℤ) :
    Move (fun o : Option (Cluster.Place ι) => o.elim 0 (d.holdings net m p))
      (s.replied net d m p) (some .pageRply) none
      ((s.lost.flatMap (Message.pagesOf m)).count p) where
  ne := by simp
  source := by
    obtain ⟨flight, rfl, hperm⟩ := h
    exact count_of_perm hperm _ p
  target := by
    show _ = 0 + _
    rw [Nat.zero_add]
    rfl
  frame := by
    intro o h1 h2
    cases o with
    | none => exact absurd rfl h2
    | some pl =>
      cases pl with
      | pageRply => exact absurd rfl h1
      | free => rfl
      | used => rfl
      | group i e => rfl
      | entry i e => rfl
      | batch i e => rfl
      | pageFree => rfl

/-- So are the batches that are lost. -/
theorem move_ledger {d : Cluster ι} (h : Follows s.cluster s.lost d) (m : ι) (p : ℤ) :
    Move (s.replied net d m p) (s.ledger net m p) (some .pageFree) none
      ((s.lost.flatMap (Message.freedOf net m)).count p) where
  ne := by simp
  source := by
    obtain ⟨flight, rfl, hperm⟩ := h
    exact count_of_perm hperm _ p
  target := rfl
  frame := by
    intro o h1 h2
    obtain ⟨flight, rfl, -⟩ := h
    cases o with
    | none => exact absurd rfl h2
    | some pl =>
      cases pl with
      | pageFree => exact absurd rfl h1
      | free => rfl
      | used => rfl
      | pageRply => rfl
      | group i e => rfl
      | entry i e => rfl
      | batch i e => rfl

/-- **Whatever is lost, every page is at exactly one place or in exactly one lost message**,
nothing else is a page, and no counter check fails.  The lossy cluster is followed by one that
loses nothing, and two moves take the lost messages out of its ledger. -/
theorem reach_ledger (h : Reach net s) :
    (∀ (m : ι) (p : ℤ), 0 ≤ p → p < net.totalPages m → Kept (s.ledger net m p)) ∧
      (∀ (m : ι) (p : ℤ), ¬ (0 ≤ p ∧ p < net.totalPages m) → Absent (s.ledger net m p)) ∧
      ∀ m, (s.cluster.buddy m).failed = [] := by
  obtain ⟨d, hd, hf⟩ := h.follows
  have hinv := Cluster.reach_inv hd
  refine ⟨fun m p h0 h1 => ?_, fun m p hp => ?_, fun m => ?_⟩
  · exact ((hinv.kept m p h0 h1).option.move (move_replied hf m p)).move (move_ledger hf m p)
  · exact ((hinv.absent m p hp).option.move (move_replied hf m p)).move (move_ledger hf m p)
  · obtain ⟨flight, rfl, -⟩ := hf
    exact (hinv.buddy m).2.2

end Pages

/-! ### What a failure ends -/

section Forever

variable {net : Network ι} {s s' t : Lossy ι} {a : LossyStep ι}

/-- What a step does to the history, the mutexes and the cluster. -/
theorem step_cases (hs : s.step net a = some s') :
    (∃ b c, s.Ready net b ∧ s.cluster.step net b = some c ∧ s' = { s with cluster := c }) ∨
      ∃ k msg locked blocked, s' = { s.drop k msg with locked := locked, blocked := blocked } ∧
        (∀ i d, s.locked i d = true → locked i d = true) ∧
        ∀ i, s.blocked i = true → blocked i = true := by
  cases a with
  | act b =>
    simp only [step] at hs
    split at hs
    swap
    · exact absurd hs (by simp)
    next hready =>
    obtain ⟨c, hc, rfl⟩ := Option.map_eq_some_iff.mp hs
    exact Or.inl ⟨b, c, hready, hc, rfl⟩
  | lose k =>
    obtain ⟨msg, -, rfl⟩ := Option.map_eq_some_iff.mp hs
    exact Or.inr ⟨k, msg, s.locked, s.blocked, rfl, fun _ _ h => h, fun _ h => h⟩
  | oom k =>
    -- `COMEX_page_receive` returns with `mutex_FG` held
    obtain ⟨msg, -, hs⟩ := Option.bind_eq_some_iff.mp hs
    split at hs
    swap
    · exact absurd hs (by simp)
    rw [← Option.some.inj hs]
    refine Or.inr ⟨k, msg, _, s.blocked, rfl, fun i d hl => ?_, fun _ h => h⟩
    by_cases hid : i = msg.receiver net ∧ d = msg.connection net
    · exact if_pos hid
    · rw [Cluster.set₂_of_ne _ _ hid]
      exact hl
  | wait k =>
    -- the only thread of `COMEX_wq` waits from here on
    obtain ⟨msg, -, hs⟩ := Option.bind_eq_some_iff.mp hs
    split at hs
    swap
    · exact absurd hs (by simp)
    rw [← Option.some.inj hs]
    refine Or.inr ⟨k, msg, s.locked, _, rfl, fun _ _ h => h, fun i hb => ?_⟩
    by_cases hi : i = msg.receiver net
    · rw [hi, Function.update_self]
    · rw [Function.update_of_ne hi]
      exact hb

theorem lost_step (hs : s.step net a = some s') : s.lost <+: s'.lost := by
  rcases step_cases hs with ⟨b, c, -, -, rfl⟩ | ⟨k, msg, locked, blocked, rfl, -, -⟩
  · exact List.prefix_refl _
  · exact List.prefix_append _ _

theorem Later.lost (ht : Later net s t) : s.lost <+: t.lost :=
  Machine.Reach.invariant (I := fun t => s.lost <+: t.lost) ht
    (fun _ h0 => h0 ▸ List.prefix_refl _) fun _ _ _ _ ih _ hs => ih.trans (lost_step hs)

/-- **A page in a lost message is lost for good**: it is never free, lent or used again.  The
ledger has it once, and no step takes a message out of those that are lost. -/
theorem lost_forever (h : Reach net s) (ht : Later net s t) {m : ι} {p : ℤ}
    (hp : 0 < s.ledger net m p none) (pl : Cluster.Place ι) :
    t.cluster.holdings net m p pl = 0 := by
  obtain ⟨hkept, habsent, -⟩ := reach_ledger (h.append ht)
  have hpos : 0 < t.ledger net m p none := by
    obtain ⟨more, hmore⟩ := ht.lost
    rw [ledger_none] at hp ⊢
    rw [← hmore]
    simp only [List.flatMap_append, List.count_append]
    omega
  by_cases hpage : 0 ≤ p ∧ p < net.totalPages m
  · have hk := hkept m p hpage.1 hpage.2
    have hone : t.ledger net m p none = 1 := by
      have := hk.le_one none
      omega
    exact hk.eq_zero hone (b := some pl) (by simp)
  · exact habsent m p hpage (some pl)

/-- Only `COMEX_move_to_Remote` gives a swap entry a page. -/
theorem entries_step {c c' : Cluster ι} {b : ClusterStep ι} (hs : c.step net b = some c') {i : ι}
    {d : ℤ} (hb : b ≠ .takePage i d) : (c'.entries i d).Sublist (c.entries i d) := by
  cases b with
  | request j e =>
    rw [← Option.some.inj hs]
  | takePage j e =>
    simp only [Cluster.step] at hs
    split at hs
    swap
    · exact absurd hs (by simp)
    obtain ⟨⟨q, g⟩, -, rfl⟩ := Option.map_eq_some_iff.mp hs
    -- the page is named by an entry of another connection
    have hne : ¬ (i = j ∧ d = e) := fun hc => hb (by rw [hc.1, hc.2])
    simp only [Cluster.set₂_of_ne _ _ hne]
    exact List.Sublist.refl _
  | freeToRemote j e q =>
    simp only [Cluster.step] at hs
    split at hs
    swap
    · exact absurd hs (by simp)
    rw [← Option.some.inj hs]
    by_cases hij : i = j ∧ d = e
    · obtain ⟨rfl, rfl⟩ := hij
      simp only [Cluster.set₂_self]
      exact List.erase_sublist
    · simp only [Cluster.set₂_of_ne _ _ hij]
      exact List.Sublist.refl _
  | doWork k =>
    obtain ⟨msg, -, rfl⟩ := Option.map_eq_some_iff.mp hs
    cases hbody : msg.body with
    | pageRqst =>
      simp only [Cluster.process, hbody]
      exact List.Sublist.refl _
    | pageRply pageNO size =>
      simp only [Cluster.process, hbody]
      exact List.Sublist.refl _
    | pageFree f =>
      simp only [Cluster.process, hbody]
      exact List.Sublist.refl _
  | moveToCOMEX m =>
    cases hr : (c.buddy m).rmqueueSmallest 0 with
    | mk o b =>
      simp only [Cluster.step, hr] at hs
      cases o with
      | none => rw [← Option.some.inj hs]
      | some q => rw [← Option.some.inj hs]
  | freeLocal m q =>
    simp only [Cluster.step] at hs
    split at hs
    · rw [← Option.some.inj hs]
    · exact absurd hs (by simp)

/-- **A node borrows no page over a connection whose list stays locked.**  Nothing unlocks the
mutex again, and `COMEX_move_to_Remote`, which tries it first, is the only caller that gives a
swap entry a page. -/
theorem locked_forever {i : ι} {d : ℤ} (hl : s.locked i d = true) (ht : Later net s t) :
    t.locked i d = true ∧ (t.cluster.entries i d).Sublist (s.cluster.entries i d) := by
  refine Machine.Reach.invariant (I := fun t => t.locked i d = true ∧
    (t.cluster.entries i d).Sublist (s.cluster.entries i d)) ht (fun u h0 => ?_)
    fun u a u' _ ih _ hs => ?_
  · rw [show u = s from h0]
    exact ⟨hl, List.Sublist.refl _⟩
  · rcases step_cases hs with ⟨b, c, hready, hc, rfl⟩ | ⟨k, msg, locked, blocked, rfl, hmono, -⟩
    · refine ⟨ih.1, (entries_step hc fun hb => ?_).trans ih.2⟩
      subst hb
      rw [show u.locked i d = false from hready] at ih
      exact absurd ih.1 (by simp)
    · exact ⟨hmono i d ih.1, ih.2⟩

/-- A step changes the pages of one node's own use, or what processing a message changes. -/
theorem home_step {c c' : Cluster ι} {b : ClusterStep ι} (hs : c.step net b = some c') :
    (∃ r bd us, c' = { c with
      buddy := Function.update c.buddy r bd
      used := Function.update c.used r us }) ∨
    c'.used = c.used ∧ ∀ m, c'.buddy m = c.buddy m ∨
      ∃ k, b = .doWork k ∧ ∃ msg, c.flight[k]? = some msg ∧ msg.receiver net = m := by
  cases b with
  | request j e =>
    rw [← Option.some.inj hs]
    exact Or.inr ⟨rfl, fun m => Or.inl rfl⟩
  | takePage j e =>
    simp only [Cluster.step] at hs
    split at hs
    swap
    · exact absurd hs (by simp)
    obtain ⟨⟨q, g⟩, -, rfl⟩ := Option.map_eq_some_iff.mp hs
    exact Or.inr ⟨rfl, fun m => Or.inl rfl⟩
  | freeToRemote j e q =>
    simp only [Cluster.step] at hs
    split at hs
    swap
    · exact absurd hs (by simp)
    rw [← Option.some.inj hs]
    exact Or.inr ⟨rfl, fun m => Or.inl rfl⟩
  | doWork k =>
    obtain ⟨msg, hk, rfl⟩ := Option.map_eq_some_iff.mp hs
    refine Or.inr ⟨?_, fun m => ?_⟩
    · cases hbody : msg.body <;> simp only [Cluster.process, hbody]
    · by_cases hm : msg.receiver net = m
      · exact Or.inr ⟨k, rfl, msg, hk, hm⟩
      · apply Or.inl
        have hne : m ≠ net.peer msg.src msg.cb := fun hc => hm hc.symm
        cases hbody : msg.body <;> simp only [Cluster.process, hbody]
        · exact Function.update_of_ne hne _ _
        · exact Function.update_of_ne hne _ _
  | moveToCOMEX m =>
    cases hr : (c.buddy m).rmqueueSmallest 0 with
    | mk o b =>
      simp only [Cluster.step, hr] at hs
      cases o with
      | none =>
        rw [← Option.some.inj hs]
        exact Or.inl ⟨m, b, c.used m, by rw [Function.update_eq_self]⟩
      | some q =>
        rw [← Option.some.inj hs]
        refine Or.inl ⟨m, b, if q < b.totalPages then q :: c.used m else c.used m, ?_⟩
        split
        · rfl
        · rw [Function.update_eq_self]
  | freeLocal m q =>
    simp only [Cluster.step] at hs
    split at hs
    · rw [← Option.some.inj hs]
      exact Or.inl ⟨m, _, _, rfl⟩
    · exact absurd hs (by simp)

/-- **A node whose `COMEX_wq` waits never gets a page back.**  The batches that would free its
pages are not processed any more, and what it does itself moves only pages that are free or in
its own use. -/
theorem blocked_forever (h : Reach net s) {m : ι} (hb : s.blocked m = true) (ht : Later net s t)
    {p : ℤ} (h0 : 0 ≤ p) (h1 : p < net.totalPages m)
    (hfree : s.cluster.holdings net m p .free = 0) (hused : s.cluster.holdings net m p .used = 0) :
    t.blocked m = true ∧ t.cluster.holdings net m p .free = 0 ∧
      t.cluster.holdings net m p .used = 0 := by
  suffices hall : Reach net t ∧ t.blocked m = true ∧ t.cluster.holdings net m p .free = 0 ∧
      t.cluster.holdings net m p .used = 0 from hall.2
  refine Machine.Reach.invariant (I := fun t => Reach net t ∧ t.blocked m = true ∧
    t.cluster.holdings net m p .free = 0 ∧ t.cluster.holdings net m p .used = 0) ht
    (fun u h0 => ?_) fun u a u' _ ih _ hs => ?_
  · rw [show u = s from h0]
    exact ⟨h, hb, hfree, hused⟩
  obtain ⟨hu, hub, huf, huu⟩ := ih
  have hu' : Reach net u' := hu.next trivial hs
  rcases step_cases hs with ⟨b, c, hready, hc, rfl⟩ | ⟨k, msg, locked, blocked, rfl, -, hmono⟩
  swap
  · -- a failure takes a message away and touches no allocator
    exact ⟨hu', hmono m hub, huf, huu⟩
  refine ⟨hu', hub, ?_⟩
  rcases home_step hc with ⟨r, bd, us, rfl⟩ | ⟨hus, hbd⟩
  · -- the page is elsewhere, and stays there
    obtain ⟨o, ho, -⟩ := (reach_ledger hu).1 m p h0 h1
    obtain ⟨hof, hou⟩ : o ≠ some .free ∧ o ≠ some .used := by
      constructor <;> rintro rfl
      · exact absurd (huf.symm.trans ho) (by decide)
      · exact absurd (huu.symm.trans ho) (by decide)
    have hsame : ledger net { u with cluster := { u.cluster with
        buddy := Function.update u.cluster.buddy r bd
        used := Function.update u.cluster.used r us } } m p o = u.ledger net m p o := by
      cases o with
      | none => rfl
      | some pl =>
        exact Cluster.holdings_local m p pl (fun hc => hof (by rw [hc])) fun hc => hou (by rw [hc])
    have hkept := (reach_ledger hu').1 m p h0 h1
    exact ⟨hkept.eq_zero (hsame.trans ho) hof.symm, hkept.eq_zero (hsame.trans ho) hou.symm⟩
  · -- only a message processed at the node could change its allocator
    have hbm : c.buddy m = u.cluster.buddy m := by
      apply (hbd m).resolve_right
      intro hc
      obtain ⟨k, rfl, msg, hk, hm⟩ := hc
      have htaken := hready msg hk
      rw [Taken, hm, hub] at htaken
      exact absurd htaken.1 (by simp)
    simp only [Cluster.holdings, hus, hbm]
    exact ⟨huf, huu⟩

end Forever

/-! ### Two nodes that run out of memory -/

/-- The two nodes with every page in use and nothing lost. -/
def twoNodesStart : Lossy Bool where
  cluster := Cluster.twoNodesStart
  locked _ _ := false
  blocked _ := false
  lost := []

/-- What two nodes with every page in use come to. -/
theorem reach_twoNodes {as : List (LossyStep Bool)} {s : Lossy Bool}
    (h : Machine.exec Machine.free (step Cluster.twoNodes) twoNodesStart as = some s) :
    Reach Cluster.twoNodes s :=
  Machine.Reach.of_exec (M := machine Cluster.twoNodes) (fun _ _ _ h => h)
    (.start ⟨Cluster.start_twoNodesStart, fun _ _ => rfl, fun _ => rfl, rfl⟩) h

/-- What they go on to. -/
theorem later_twoNodes {as : List (LossyStep Bool)} {s t : Lossy Bool}
    (h : Machine.exec Machine.free (step Cluster.twoNodes) s as = some t) :
    Later Cluster.twoNodes s t :=
  Machine.Reach.of_exec (M := (machine Cluster.twoNodes).since s) (fun _ _ _ h => h)
    (.start rfl) h

/-- A node lends page 0, its borrower has no memory for the group. -/
def outOfMemory : List (LossyStep Bool) :=
  [.act (.freeLocal true 0), .act (.request false 0), .act (.doWork 0), .oom 0]

/-- Page 0 is in the lost reply, and nowhere else. -/
theorem reach_ledger_outOfMemory : ∃ s : Lossy Bool, Reach Cluster.twoNodes s ∧
    s.ledger Cluster.twoNodes true 0 none = 1 ∧ Kept (s.ledger Cluster.twoNodes true 0) := by
  obtain ⟨s, hexec, hlost⟩ : ∃ s, Machine.exec Machine.free (step Cluster.twoNodes) twoNodesStart
      outOfMemory = some s ∧ s.ledger Cluster.twoNodes true 0 none = 1 := ⟨_, rfl, by decide⟩
  have hs := reach_twoNodes hexec
  exact ⟨s, hs, hlost, (reach_ledger hs).1 true 0 (by decide) (by decide)⟩

/-- It is not free after page 1 has been freed either. -/
theorem lost_forever_outOfMemory : ∃ s t : Lossy Bool, Reach Cluster.twoNodes s ∧
    Later Cluster.twoNodes s t ∧ t.cluster.holdings Cluster.twoNodes true 1 .free = 1 ∧
    t.cluster.holdings Cluster.twoNodes true 0 .free = 0 := by
  obtain ⟨s, hexec, hlost, t, hexec', hfree⟩ : ∃ s, Machine.exec Machine.free
      (step Cluster.twoNodes) twoNodesStart outOfMemory = some s ∧
      0 < s.ledger Cluster.twoNodes true 0 none ∧ ∃ t, Machine.exec Machine.free
        (step Cluster.twoNodes) s [.act (.freeLocal true 1)] = some t ∧
        t.cluster.holdings Cluster.twoNodes true 1 .free = 1 :=
    ⟨_, rfl, by decide, _, rfl, by decide⟩
  have hs := reach_twoNodes hexec
  have ht := later_twoNodes hexec'
  exact ⟨s, t, hs, ht, hfree, lost_forever hs ht hlost .free⟩

/-- A second block is for a list that stays locked. -/
def secondBlock : List (LossyStep Bool) :=
  [.act (.freeLocal true 1), .act (.request false 1), .act (.doWork 0), .wait 0]

/-- The borrower gets nothing of it. -/
theorem locked_forever_secondBlock : ∃ s t : Lossy Bool, Later Cluster.twoNodes s t ∧
    t.locked false 0 = true ∧ (t.cluster.entries false 0).Sublist (s.cluster.entries false 0) := by
  obtain ⟨s, -, hlocked, t, hexec⟩ : ∃ s, Machine.exec Machine.free (step Cluster.twoNodes)
      twoNodesStart outOfMemory = some s ∧ s.locked false 0 = true ∧
      ∃ t, Machine.exec Machine.free (step Cluster.twoNodes) s secondBlock = some t :=
    ⟨_, rfl, by decide, _, rfl⟩
  exact ⟨s, t, later_twoNodes hexec, locked_forever hlocked (later_twoNodes hexec)⟩

/-- The borrower has lent a page itself; with its `COMEX_wq` waiting, the page that is given
back stays away. -/
theorem blocked_forever_secondBlock : ∃ s t : Lossy Bool, Reach Cluster.twoNodes s ∧
    Later Cluster.twoNodes s t ∧ t.blocked false = true ∧
    t.cluster.holdings Cluster.twoNodes false 0 .free = 0 ∧
    t.cluster.holdings Cluster.twoNodes false 0 (.batch true 0) = 1 := by
  obtain ⟨s, hexec, hb, hfree, hused, t, hexec', hbatch⟩ : ∃ s, Machine.exec Machine.free
      (step Cluster.twoNodes) twoNodesStart ([.act (.freeLocal false 0), .act (.request true 0),
        .act (.doWork 0), .act (.doWork 0)] ++ outOfMemory ++ secondBlock) = some s ∧
      s.blocked false = true ∧ s.cluster.holdings Cluster.twoNodes false 0 .free = 0 ∧
      s.cluster.holdings Cluster.twoNodes false 0 .used = 0 ∧ ∃ t, Machine.exec Machine.free
        (step Cluster.twoNodes) s [.act (.takePage true 0), .act (.freeToRemote true 0 0)] =
          some t ∧ t.cluster.holdings Cluster.twoNodes false 0 (.batch true 0) = 1 :=
    ⟨_, rfl, by decide, by decide, by decide, _, rfl, by decide⟩
  have hs := reach_twoNodes hexec
  have ht := later_twoNodes hexec'
  obtain ⟨h1, h2, -⟩ := blocked_forever hs hb ht (p := 0) (by decide) (by decide) hfree hused
  exact ⟨s, t, hs, ht, h1, h2, hbatch⟩

end Lossy
end Comex
