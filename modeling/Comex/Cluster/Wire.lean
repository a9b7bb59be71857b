import Comex.Cluster.Ownership
import Comex.Lib.Words

/-!
# Messages as bytes

`universal_send` copies a C structure into a send slot and posts it with the command
as immediate; the peer's `COMEX_do_verb` copies a structure of the size the command
says out of the receive slot, where bytes of an older message follow.  The padding of
a structure is what was in memory.  In every state a cluster reaches the numbers of a
message fit their fields, so a cluster that exchanges bytes does what one that
exchanges messages does.

## Main definitions

* `packet` — the bytes of a message, `doVerb` — what is read from a receive slot.
* `Wired`, `Wired.step` — the cluster with bytes in flight.

## Main results

* `doVerb_packet` — what a message says is read back.
* `reach_small` — the numbers of every message fit.
* `reach_cluster` — **the cluster with bytes in flight refines the one with messages.**
-/

namespace Comex

open Words (ofInt toInt array readArray)

/-! ### The structures -/

/-- `CODE_COMEX_PAGE_RQST`. -/
def codePageRqst : ℕ := 10010

/-- `CODE_COMEX_PAGE_RPLY`. -/
def codePageRply : ℕ := 10011

/-- `CODE_COMEX_PAGE_FREE`. -/
def codePageFree : ℕ := 10300

/-- `MAX_INLINE_PAYLOAD`. -/
def maxInlinePayload : ℕ := 162

/-- What the code does not determine: the padding of `reply_pages_t` and what an older
message left in the receive slot. -/
structure Noise where
  pad : List UInt8
  pad_length : pad.length = 3
  old : List UInt8

/-- The immediate and the payload of a message, from the node with ID `srcNode`. -/
def Body.encode (srcNode : ℤ) (pad : List UInt8) : Body → ℕ × List UInt8
  | .pageRqst => (codePageRqst, ofInt 4 srcNode)
  | .pageRply pageNO size =>
    (codePageRply, ofInt 4 srcNode ++ ofInt 4 pageNO ++ ofInt 1 size ++ pad)
  | .pageFree f => (codePageFree, array 4 (f.map Prod.fst) ++ array 2 (f.map Prod.snd))

/-- A `work_content`: the command with its arguments. -/
inductive Work
  | pageRqst (target : ℤ)
  | pageRply (srcNode pageNO size : ℤ)
  | pageFree (f : FreeStruct)
  deriving DecidableEq, Repr

/-- `COMEX_do_verb`, with the receive slot: the work that is queued. -/
def doVerb (cmdNum : ℕ) (piggy : List UInt8) : Option Work :=
  if cmdNum = codePageRqst then some (.pageRqst (toInt 4 piggy))
  else if cmdNum = codePageRply then
    some (.pageRply (toInt 4 piggy) (toInt 4 (piggy.drop 4)) (toInt 1 (piggy.drop 8)))
  else if cmdNum = codePageFree then
    some (.pageFree ((readArray 4 maxFree piggy).zip (readArray 2 maxFree (piggy.drop 64))))
  else none

/-- `universal_recv_handler`: 2 is the buffer info of the peer; 4, 5 and 99 are ignored. -/
def universalRecvHandler (imm : ℕ) (piggy : List UInt8) : Option Work :=
  if imm = 2 ∨ imm = 4 ∨ imm = 5 ∨ imm = 99 then none else doVerb imm piggy

/-! ### Reading a message back -/

/-- Sixteen ranges of pages of a node with `total` pages. -/
def FreeStruct.Small (total : ℕ) (f : FreeStruct) : Prop :=
  f.length = maxFree ∧ ∀ x ∈ f, -1 ≤ x.1 ∧ x.1 < total ∧ 0 ≤ x.2 ∧ x.2 ≤ 16383

/-- What a body says about a node with `total` pages and `COMEX_refill`. -/
def Body.Small (total refill : ℕ) : Body → Prop
  | .pageRqst => True
  | .pageRply pageNO size => -1 ≤ pageNO ∧ pageNO < total ∧ size ≤ refill
  | .pageFree f => f.Small total

/-- What `COMEX_do_work` is to do for a message. -/
def Body.work (srcNode : ℤ) : Body → Work
  | .pageRqst => .pageRqst srcNode
  | .pageRply pageNO size => .pageRply srcNode pageNO size
  | .pageFree f => .pageFree f

section Fields

variable {total refill : ℕ} {x srcNode : ℤ}

theorem fits_int (h0 : -2 ^ 31 ≤ x) (h1 : x < 2 ^ 31) : Words.Fits 4 x := by
  constructor <;> norm_num <;> omega

theorem fits_pageNO (ht : total ≤ 2 ^ 31) (h0 : -1 ≤ x) (h1 : x < total) : Words.Fits 4 x :=
  fits_int (by omega) (by omega)

theorem fits_short (h0 : 0 ≤ x) (h1 : x ≤ 16383) : Words.Fits 2 x := by
  constructor <;> norm_num <;> omega

theorem fits_char {k : ℕ} (h : k ≤ refill) (hr : refill < 128) : Words.Fits 1 (k : ℤ) := by
  constructor <;> norm_num <;> omega

/-- A batch is read back from its two arrays. -/
theorem zip_readArray (ht : total ≤ 2 ^ 31) {f : FreeStruct} (h : f.Small total)
    (rest : List UInt8) :
    (readArray 4 maxFree (array 4 (f.map Prod.fst) ++ array 2 (f.map Prod.snd) ++ rest)).zip
      (readArray 2 maxFree
        ((array 4 (f.map Prod.fst) ++ array 2 (f.map Prod.snd) ++ rest).drop 64)) = f := by
  obtain ⟨hlen, hsmall⟩ := h
  have hfst : (f.map Prod.fst).length = maxFree := by rw [List.length_map, hlen]
  have hsnd : (f.map Prod.snd).length = maxFree := by rw [List.length_map, hlen]
  have hbytes : (array 4 (f.map Prod.fst)).length = 64 := by rw [Words.length_array, hfst]; rfl
  have hpages := @Words.readArray_array 4 (f.map Prod.fst) (fun y hy => by
    obtain ⟨z, hz, rfl⟩ := List.mem_map.mp hy
    exact fits_pageNO ht (hsmall z hz).1 (hsmall z hz).2.1) (array 2 (f.map Prod.snd) ++ rest)
  have hcounts := @Words.readArray_array 2 (f.map Prod.snd) (fun y hy => by
    obtain ⟨z, hz, rfl⟩ := List.mem_map.mp hy
    exact fits_short (hsmall z hz).2.2.1 (hsmall z hz).2.2.2) rest
  rw [hfst] at hpages
  rw [hsnd] at hcounts
  rw [List.append_assoc, hpages, List.drop_left' hbytes, hcounts]
  exact (List.zip_of_prod rfl rfl).symm

/-- **What a message says is read back**, whatever its padding and what follows it. -/
theorem doVerb_encode (hid : Words.Fits 4 srcNode) (ht : total ≤ 2 ^ 31) (hr : refill < 128)
    {body : Body} (h : body.Small total refill) (pad rest : List UInt8) :
    universalRecvHandler (body.encode srcNode pad).1 ((body.encode srcNode pad).2 ++ rest) =
      some (body.work srcNode) := by
  cases body with
  | pageRqst =>
    show some (Work.pageRqst (toInt 4 (ofInt 4 srcNode ++ rest))) = _
    rw [Words.toInt_ofInt hid]
    rfl
  | pageRply pageNO size =>
    obtain ⟨h0, h1, h2⟩ := h
    show some (Work.pageRply _ _ _) = _
    simp only [Body.encode, List.append_assoc]
    rw [Words.toInt_ofInt hid, List.drop_left' (Words.length_ofInt 4 srcNode),
      Words.toInt_ofInt (fits_pageNO ht h0 h1)]
    rw [show (8 : ℕ) = 4 + 4 from rfl, ← List.drop_drop,
      List.drop_left' (Words.length_ofInt 4 srcNode), List.drop_left' (Words.length_ofInt 4 pageNO),
      Words.toInt_ofInt (fits_char h2 hr)]
    rfl
  | pageFree f =>
    show some (Work.pageFree _) = _
    simp only [Body.encode]
    rw [zip_readArray ht h]
    rfl

/-- A message fits in a send slot. -/
theorem length_encode_le {body : Body} (h : body.Small total refill) {pad : List UInt8}
    (hpad : pad.length = 3) : (body.encode srcNode pad).2.length ≤ maxInlinePayload := by
  cases body with
  | pageRqst =>
    simp only [Body.encode, Words.length_ofInt]
    decide
  | pageRply pageNO size =>
    simp only [Body.encode, List.length_append, Words.length_ofInt, hpad]
    decide
  | pageFree f =>
    simp only [Body.encode, List.length_append, Words.length_array, List.length_map, h.1]
    decide

end Fields

/-! ### The numbers of every message fit -/

namespace FreeStruct

/-- What holds of every range holds after a page has been taken in, if it holds of a range that
grows at either end and of a new one. -/
theorem forall_add {P : ℤ × ℤ → Prop} {f f' : FreeStruct} {pageNO : ℤ}
    (hadd : f.add pageNO = some f') (h : ∀ x ∈ f, P x)
    (hup : ∀ p count, P (p, count) → p + count = pageNO → count < 16383 → P (p, count + 1))
    (hdown : ∀ p count, P (p, count) → p - 1 = pageNO → count < 16383 → P (p - 1, count + 1))
    (hnew : P (pageNO, 1)) : f'.length = f.length ∧ ∀ x ∈ f', P x := by
  induction f generalizing f' with
  | nil => exact absurd hadd (by simp [FreeStruct.add])
  | cons x rest ih =>
    obtain ⟨p, count⟩ := x
    have hx : P (p, count) := h _ (List.mem_cons_self ..)
    have hrest : ∀ y ∈ rest, P y := fun y hy => h y (List.mem_cons_of_mem _ hy)
    have hcons : ∀ {y}, P y → ∀ z ∈ y :: rest, P z := by
      intro y hy z hz
      rcases List.mem_cons.mp hz with rfl | hz
      · exact hy
      · exact hrest z hz
    unfold FreeStruct.add at hadd
    split at hadd
    · -- the page follows the range
      next hc =>
      rw [← Option.some.inj hadd]
      exact ⟨rfl, hcons (hup p count hx hc.1 hc.2)⟩
    split at hadd
    · -- the page comes before the range
      next hc =>
      rw [← Option.some.inj hadd]
      exact ⟨rfl, hcons (hdown p count hx hc.1 hc.2)⟩
    split at hadd
    · -- a cleared range, which the page begins anew
      rw [← Option.some.inj hadd]
      exact ⟨rfl, hcons hnew⟩
    · obtain ⟨f'', hf'', rfl⟩ := Option.map_eq_some_iff.mp hadd
      obtain ⟨hlen, hall⟩ := ih hf'' hrest
      refine ⟨congrArg (· + 1) hlen, fun z hz => ?_⟩
      rcases List.mem_cons.mp hz with rfl | hz
      · exact hx
      · exact hall z hz

theorem Small.clean (total : ℕ) : Small total clean := by
  refine ⟨rfl, fun x hx => ?_⟩
  rw [List.eq_of_mem_replicate hx]
  exact ⟨by simp, by simp only; omega, by simp, by simp⟩

theorem Small.freeToRemote {total : ℕ} {f : FreeStruct} (h : f.Small total) {pageNO : ℤ}
    (h0 : 0 ≤ pageNO) (h1 : pageNO < total) : (f.freeToRemote pageNO).2.Small total ∧
      ∀ g, (f.freeToRemote pageNO).1 = some g → g.Small total := by
  unfold FreeStruct.freeToRemote
  cases hadd : f.add pageNO with
  | some f' =>
    obtain ⟨hlen, hall⟩ := forall_add hadd h.2
      (fun p count hp _ hc => by simp only at hp ⊢; omega)
      (fun p count hp hp' hc => by simp only at hp ⊢; omega) (by simp only; omega)
    exact ⟨⟨hlen.trans h.1, hall⟩, fun g hg => absurd hg (by simp)⟩
  | none =>
    refine ⟨⟨rfl, fun x hx => ?_⟩, fun g hg => ?_⟩
    · rcases List.mem_cons.mp hx with rfl | hx
      · simp only
        omega
      · exact (Small.clean total).2 x (List.mem_of_mem_tail hx)
    · rw [← Option.some.inj hg]
      exact h

end FreeStruct

namespace Buddy

theorem requestLoop_size_le (i : ℕ) (b : Buddy) : (requestLoop i b).1.2 ≤ i := by
  induction i generalizing b with
  | zero => exact Nat.le_refl 0
  | succ i ih =>
    unfold requestLoop
    simp only
    split
    · exact Nat.le_succ_of_le (ih _)
    · exact Nat.le_refl _

end Buddy

namespace Cluster

variable {ι : Type} [DecidableEq ι] {net : Network ι} {s s' : Cluster ι}

/-- The node whose pages a message is about. -/
def subject (net : Network ι) (msg : Message ι) : ι :=
  match msg.body with
  | .pageFree _ => net.peer msg.src msg.cb
  | _ => msg.src

/-- The numbers of the messages and of the batches fit. -/
structure Small (net : Network ι) (s : Cluster ι) : Prop where
  batch : ∀ i d, (s.batch i d).Small (net.totalPages (net.peer i d))
  flight : ∀ msg ∈ s.flight,
    msg.body.Small (net.totalPages (subject net msg)) (net.refill msg.src)

/-- The answer to a request says small numbers. -/
theorem Inv.small_reply (h : Inv net s) (r : ι) :
    Body.Small (net.totalPages r) (net.refill r)
      (.pageRply ((s.buddy r).pagesRequest (net.refill r)).1.1
        ((s.buddy r).pagesRequest (net.refill r)).1.2) := by
  have hb := (h.buddy r).1
  have htot := (h.buddy r).2.1
  refine ⟨?_, ?_, Buddy.requestLoop_size_le _ _⟩
  · rcases hb.pagesRequest (net.refill r) with ⟨hno, -⟩ | ⟨q, hq, -⟩ <;> omega
  · rcases hb.pagesRequest (net.refill r) with ⟨hno, -⟩ | ⟨q, hq, ha⟩
    · omega
    · have := hb.links.lt_of_free (ha.was_free q (Aligned.Block.mem_around _ q))
      omega

/-- Every step keeps the numbers small: a batch takes in pages of swap entries, which the ledger
has below `COMEX_total_pages`, and a reply says what the allocator found. -/
theorem Small.step (hsmall : Small net s) (h : Inv net s) {a : ClusterStep ι}
    (hs : s.step net a = some s') : Small net s' := by
  cases a with
  | request i d =>
    rw [← Option.some.inj hs]
    refine ⟨hsmall.batch, fun msg hmsg => ?_⟩
    simp only at hmsg
    split at hmsg
    · rcases List.mem_append.mp hmsg with hmsg | hmsg
      · exact hsmall.flight msg hmsg
      · rw [List.mem_singleton.mp hmsg]
        trivial
    · exact hsmall.flight msg hmsg
  | takePage i d =>
    simp only [Cluster.step] at hs
    split at hs
    swap
    · exact absurd hs (by simp)
    obtain ⟨⟨q, g⟩, -, rfl⟩ := Option.map_eq_some_iff.mp hs
    exact ⟨hsmall.batch, hsmall.flight⟩
  | freeToRemote i d p =>
    simp only [Cluster.step] at hs
    split at hs
    swap
    · exact absurd hs (by simp)
    next hp =>
    rw [← Option.some.inj hs]
    -- the page is that of a swap entry, so it is a page of the peer
    have hpos : 0 < s.holdings net (net.peer i d) p (.entry i d) := by
      simp only [holdings, if_true]
      exact List.count_pos_iff.mpr hp
    obtain ⟨h0, h1, -, -⟩ := h.holdings_pos hpos
    obtain ⟨hkeep, hsent⟩ := (hsmall.batch i d).freeToRemote h0 h1
    refine ⟨fun j e => ?_, fun msg hmsg => ?_⟩
    · by_cases hje : j = i ∧ e = d
      · obtain ⟨rfl, rfl⟩ := hje
        simp only [set₂_self]
        exact hkeep
      · simp only [set₂_of_ne _ _ hje]
        exact hsmall.batch j e
    · rcases List.mem_append.mp hmsg with hmsg | hmsg
      · exact hsmall.flight msg hmsg
      · obtain ⟨f, hf, rfl⟩ := List.mem_map.mp hmsg
        exact hsent f (by simpa using hf)
  | doWork k =>
    obtain ⟨msg, hk, rfl⟩ := Option.map_eq_some_iff.mp hs
    have herase : ∀ m ∈ s.flight.eraseIdx k,
        m.body.Small (net.totalPages (subject net m)) (net.refill m.src) := fun m hm =>
      hsmall.flight m (List.mem_of_mem_eraseIdx hm)
    cases hbody : msg.body with
    | pageRqst =>
      simp only [process, hbody]
      refine ⟨hsmall.batch, fun m hm => ?_⟩
      rcases List.mem_append.mp hm with hm | hm
      · exact herase m hm
      · rw [List.mem_singleton.mp hm]
        exact h.small_reply _
    | pageRply pageNO size =>
      simp only [process, hbody]
      exact ⟨hsmall.batch, herase⟩
    | pageFree f =>
      simp only [process, hbody]
      exact ⟨hsmall.batch, herase⟩
  | moveToCOMEX m =>
    cases hr : (s.buddy m).rmqueueSmallest 0 with
    | mk o b =>
      simp only [Cluster.step, hr] at hs
      cases o with
      | none =>
        rw [← Option.some.inj hs]
        exact ⟨hsmall.batch, hsmall.flight⟩
      | some q =>
        rw [← Option.some.inj hs]
        exact ⟨hsmall.batch, hsmall.flight⟩
  | freeLocal m q =>
    simp only [Cluster.step] at hs
    split at hs
    · rw [← Option.some.inj hs]
      exact ⟨hsmall.batch, hsmall.flight⟩
    · exact absurd hs (by simp)

/-- **The numbers of every message fit**, in every state a cluster reaches. -/
theorem reach_small (h : Reach net s) : Small net s := by
  suffices hall : Inv net s ∧ Small net s from hall.2
  refine h.invariant (I := fun s => Inv net s ∧ Small net s) (fun s h0 => ?_)
    fun s a s' _ ih _ hs => ⟨ih.1.step hs, ih.2.step ih.1 hs⟩
  refine ⟨Inv.start h0, fun i d => ?_, fun msg hmsg => ?_⟩
  · rw [h0.batch]
    exact FreeStruct.Small.clean _
  · rw [h0.flight] at hmsg
    exact absurd hmsg (by simp)

/-- What a step other than `COMEX_do_work` sends does not depend on the flight. -/
theorem step_flight {c : Cluster ι} {a : ClusterStep ι} (ha : ∀ k, a ≠ .doWork k)
    (hs : step net { s with flight := [] } a = some c) (flight : List (Message ι)) :
    step net { s with flight := flight } a = some { c with flight := flight ++ c.flight } := by
  cases a with
  | request i d =>
    simp only [step, Option.some.injEq] at hs ⊢
    rw [← hs]
    simp only
    split
    · rfl
    · rw [List.append_nil]
  | takePage i d =>
    simp only [step] at hs ⊢
    split at hs
    swap
    · exact absurd hs (by simp)
    next hpos =>
    obtain ⟨⟨q, g⟩, hget, rfl⟩ := Option.map_eq_some_iff.mp hs
    rw [if_pos hpos, hget, Option.map_some, List.append_nil]
  | freeToRemote i d p =>
    simp only [step] at hs ⊢
    split at hs
    swap
    · exact absurd hs (by simp)
    next hp =>
    rw [if_pos hp, ← Option.some.inj hs]
    rfl
  | doWork k => exact absurd rfl (ha k)
  | moveToCOMEX m =>
    cases hr : (s.buddy m).rmqueueSmallest 0 with
    | mk o b =>
      simp only [step, hr] at hs ⊢
      cases o with
      | none =>
        rw [← Option.some.inj hs, List.append_nil]
      | some q =>
        rw [← Option.some.inj hs, List.append_nil]
  | freeLocal m q =>
    simp only [step] at hs ⊢
    split at hs
    swap
    · exact absurd hs (by simp)
    next hq =>
    rw [if_pos hq, ← Option.some.inj hs, List.append_nil]

end Cluster

/-! ### The cluster with bytes in flight -/

/-- The nodes' IDs, and options that are `int`s. -/
structure Wiring {ι : Type} (net : Network ι) where
  /-- `COMEX_ID`. -/
  comexID : ι → ℤ
  id_fits : ∀ i, Words.Fits 4 (comexID i)
  /-- `ID_to_CB`. -/
  idToCB : ι → ℤ → ℤ
  /-- Every node is found by its ID where its messages arrive. -/
  agrees : ∀ i d, idToCB (net.peer i d) (comexID i) = net.idToCB (net.peer i d) i
  pages_le : ∀ m, net.totalPages m ≤ 2 ^ 31
  refill_lt : ∀ m, net.refill m < 128

/-- A message on the wire: its immediate and its payload. -/
structure Packet (ι : Type) where
  src : ι
  cb : ℤ
  imm : ℕ
  bytes : List UInt8

/-- The cluster, its messages as bytes. -/
structure Wired (ι : Type) where
  /-- What the nodes hold; its flight is empty. -/
  cluster : Cluster ι
  wire : List (Packet ι)

/-- `universal_send` of a message. -/
def packet {ι : Type} {net : Network ι} (wiring : Wiring net) (noise : Noise)
    (msg : Message ι) : Packet ι where
  src := msg.src
  cb := msg.cb
  imm := (msg.body.encode (wiring.comexID msg.src) noise.pad).1
  bytes := (msg.body.encode (wiring.comexID msg.src) noise.pad).2

namespace Wired

variable {ι : Type} [DecidableEq ι] {net : Network ι} (wiring : Wiring net)

omit [DecidableEq ι] in
/-- The nodes have come to `c`, whose messages go on the wire. -/
def send (noise : Noise) (w : Wired ι) (c : Cluster ι) : Wired ι where
  cluster := { c with flight := [] }
  wire := w.wire ++ c.flight.map (packet wiring noise)

/-- `COMEX_do_work` on node `r`. -/
def doWork (noise : Noise) (w : Wired ι) (r : ι) : Work → Wired ι
  | .pageRqst target =>
    let a := (w.cluster.buddy r).pagesRequest (net.refill r)
    w.send wiring noise { w.cluster with
      buddy := Function.update w.cluster.buddy r a.2
      flight := [⟨r, wiring.idToCB r target, .pageRply a.1.1 a.1.2⟩] }
  | .pageRply srcNode pageNO size =>
    let d := wiring.idToCB r srcNode
    { w with cluster := { w.cluster with
        group := Cluster.set₂ w.cluster.group r d
          ((w.cluster.group r d).pageReceive (net.refill r) pageNO size.toNat) } }
  | .pageFree f =>
    { w with cluster := { w.cluster with
        buddy := Function.update w.cluster.buddy r ((w.cluster.buddy r).freeBatch f) } }

/-- One step, if it is enabled. -/
def step (w : Wired ι) : ClusterStep ι × Noise → Option (Wired ι)
  | (.doWork k, noise) => w.wire[k]?.map fun pkt =>
    let w := { w with wire := w.wire.eraseIdx k }
    match universalRecvHandler pkt.imm (pkt.bytes ++ noise.old.drop pkt.bytes.length) with
    | some work => w.doWork wiring noise (net.peer pkt.src pkt.cb) work
    | none => w
  | (a, noise) => (w.cluster.step net a).map (w.send wiring noise)

/-- The runs of a cluster that exchanges bytes. -/
def machine : Machine (Wired ι) (ClusterStep ι × Noise) where
  init w := Cluster.Start net w.cluster ∧ w.wire = []
  step w a w' := w.step wiring a = some w'

/-- The states of such a cluster. -/
abbrev Reach (w : Wired ι) : Prop := Machine.Reach (machine wiring) Machine.free w

/-- The bytes on the wire are the messages of `s`, and all else is equal. -/
def Carries (w : Wired ι) (s : Cluster ι) : Prop :=
  w.cluster = { s with flight := [] } ∧ ∃ l : List (Message ι × Noise),
    s.flight = l.map Prod.fst ∧ w.wire = l.map fun x => packet wiring x.2 x.1

section Refinement

variable {wiring} {w w' : Wired ι} {s : Cluster ι}

omit [DecidableEq ι] in
theorem Carries.send (h : Carries wiring w s) (noise : Noise) (c : Cluster ι) :
    Carries wiring (w.send wiring noise c) { c with flight := s.flight ++ c.flight } := by
  obtain ⟨-, l, hs, hw⟩ := h
  refine ⟨rfl, l ++ c.flight.map fun msg => (msg, noise), ?_, ?_⟩
  · simp only [hs, List.map_append, List.map_map, Function.comp_def, List.map_id']
  · simp only [Wired.send, hw, List.map_append, List.map_map, Function.comp_def]

omit [DecidableEq ι] in
/-- The `k`-th packet is the `k`-th message. -/
theorem Carries.getElem? (h : Carries wiring w s) {k : ℕ} {pkt : Packet ι}
    (hk : w.wire[k]? = some pkt) : ∃ msg noise, s.flight[k]? = some msg ∧
      pkt = packet wiring noise msg ∧
      Carries wiring { w with wire := w.wire.eraseIdx k }
        { s with flight := s.flight.eraseIdx k } := by
  obtain ⟨hc, l, hs, hw⟩ := h
  rw [hw, List.getElem?_map, Option.map_eq_some_iff] at hk
  obtain ⟨⟨msg, noise⟩, hl, rfl⟩ := hk
  refine ⟨msg, noise, ?_, rfl, hc, l.eraseIdx k, ?_, ?_⟩
  · rw [hs, List.getElem?_map, hl, Option.map_some]
  · simp only [hs, List.eraseIdx_map]
  · simp only [hw, List.eraseIdx_map]

/-- A packet is processed as its message is, whatever the noise of the packets it sends. -/
theorem Carries.doWork (h : Carries wiring w s) (noise : Noise) (msg : Message ι) :
    Carries wiring (w.doWork wiring noise (net.peer msg.src msg.cb)
      (msg.body.work (wiring.comexID msg.src))) (Cluster.process net s msg) := by
  have hagrees := wiring.agrees msg.src msg.cb
  cases hbody : msg.body with
  | pageRqst =>
    -- the one message that is answered
    have hsend := h.send noise { s with
      buddy := Function.update s.buddy (net.peer msg.src msg.cb)
        ((s.buddy (net.peer msg.src msg.cb)).pagesRequest
          (net.refill (net.peer msg.src msg.cb))).2
      flight := [⟨net.peer msg.src msg.cb, net.idToCB (net.peer msg.src msg.cb) msg.src,
        .pageRply ((s.buddy (net.peer msg.src msg.cb)).pagesRequest
            (net.refill (net.peer msg.src msg.cb))).1.1
          ((s.buddy (net.peer msg.src msg.cb)).pagesRequest
            (net.refill (net.peer msg.src msg.cb))).1.2⟩] }
    simp only [Wired.doWork, Body.work, h.1, hagrees, Cluster.process, hbody]
    exact hsend
  | pageRply pageNO size =>
    obtain ⟨hc, l, hs, hw⟩ := h
    simp only [Wired.doWork, Body.work, hc, hagrees, Cluster.process, hbody, Int.toNat_natCast]
    exact ⟨rfl, l, hs, hw⟩
  | pageFree f =>
    obtain ⟨hc, l, hs, hw⟩ := h
    simp only [Wired.doWork, Body.work, hc, Cluster.process, hbody]
    exact ⟨rfl, l, hs, hw⟩

/-- **The cluster with messages follows every step.**  What a step sends does not depend on what
is in flight, so it is encoded and put behind the rest; a packet that is processed decodes to
the message it was made from. -/
theorem Carries.step (h : Carries wiring w s) (hsmall : Cluster.Small net s)
    {a : ClusterStep ι × Noise} (hs : w.step wiring a = some w') :
    ∃ s', s.step net a.1 = some s' ∧ Carries wiring w' s' := by
  obtain ⟨a, noise⟩ := a
  by_cases ha : ∀ k, a ≠ .doWork k
  · have hplain : w.step wiring (a, noise) = (w.cluster.step net a).map (w.send wiring noise) := by
      cases a with
      | doWork k => exact absurd rfl (ha k)
      | request i d => rfl
      | takePage i d => rfl
      | freeToRemote i d p => rfl
      | moveToCOMEX m => rfl
      | freeLocal m p => rfl
    rw [hplain, h.1] at hs
    obtain ⟨c, hc, rfl⟩ := Option.map_eq_some_iff.mp hs
    exact ⟨_, Cluster.step_flight ha hc s.flight, h.send noise c⟩
  · -- the packet is read back before it is processed
    push Not at ha
    obtain ⟨k, rfl⟩ := ha
    obtain ⟨pkt, hk, rfl⟩ := Option.map_eq_some_iff.mp hs
    obtain ⟨msg, noise', hmsg, rfl, herase⟩ := h.getElem? hk
    have hread := doVerb_encode (wiring.id_fits msg.src) (wiring.pages_le _)
      (wiring.refill_lt msg.src) (hsmall.flight msg (List.mem_of_getElem? hmsg)) noise'.pad
      (noise.old.drop (packet wiring noise' msg).bytes.length)
    refine ⟨Cluster.process net { s with flight := s.flight.eraseIdx k } msg, ?_, ?_⟩
    · simp only [Cluster.step, hmsg, Option.map_some]
    · simp only [packet] at hread ⊢
      rw [hread]
      exact herase.doWork noise msg

/-- **A cluster that exchanges bytes does what one that exchanges messages does**: whatever
the padding and the receive slots hold, its state is one the other reaches. -/
theorem reach_cluster (h : Reach wiring w) :
    ∃ s, Cluster.Reach net s ∧ Carries wiring w s := by
  refine Machine.Reach.simulate (N := Cluster.machine net) (R := Carries wiring) h
    (fun w h0 => ⟨w.cluster, h0.1, ?_, [], h0.1.flight, h0.2⟩)
    fun w a w' s hs hc hstep => ?_
  · rw [← h0.1.flight]
  · obtain ⟨s', hs', hc'⟩ := hc.step (Cluster.reach_small hs) hstep
    exact Or.inr ⟨a.1, s', hs', hc'⟩

/-- Every packet was one that fits in a send slot. -/
theorem reach_length_le (h : Reach wiring w) :
    ∀ pkt ∈ w.wire, pkt.bytes.length ≤ maxInlinePayload := by
  obtain ⟨s, hs, -, l, hflight, hwire⟩ := reach_cluster h
  intro pkt hpkt
  rw [hwire] at hpkt
  obtain ⟨⟨msg, noise⟩, hmem, rfl⟩ := List.mem_map.mp hpkt
  have hmsg : msg ∈ s.flight := by
    rw [hflight]
    exact List.mem_map_of_mem hmem
  exact length_encode_le ((Cluster.reach_small hs).flight msg hmsg) noise.pad_length

end Refinement

/-- The two nodes have the IDs 1 and 2. -/
def twoNodes : Wiring Cluster.twoNodes where
  comexID i := if i then 2 else 1
  id_fits i := by cases i <;> constructor <;> decide
  idToCB _ _ := 0
  agrees _ _ := rfl
  pages_le _ := show 4 ≤ 2 ^ 31 by decide
  refill_lt _ := show 0 < 128 by decide

/-- Padding and receive slots full of ones. -/
def ones : Noise where
  pad := List.replicate 3 255
  pad_length := rfl
  old := List.replicate 168 255

/-- The two nodes with every page in use and nothing on the wire. -/
def twoNodesStart : Wired Bool where
  cluster := Cluster.twoNodesStart
  wire := []

/-- A page is lent in a reply whose padding and receive slot are ones. -/
theorem reach_cluster_lent : ∃ w : Wired Bool, w.cluster.entries false 0 = [0] ∧
    ∃ s, Cluster.Reach Cluster.twoNodes s ∧ Carries twoNodes w s := by
  obtain ⟨w, hexec, hentry⟩ : ∃ w, Machine.exec Machine.free (step twoNodes) twoNodesStart
      [(.freeLocal true 0, ones), (.request false 0, ones), (.doWork 0, ones), (.doWork 0, ones),
        (.takePage false 0, ones)] = some w ∧ w.cluster.entries false 0 = [0] :=
    ⟨_, rfl, by decide⟩
  have hw : Reach twoNodes w := Machine.Reach.of_exec (M := machine twoNodes)
    (fun _ _ _ h => h) (.start ⟨Cluster.start_twoNodesStart, rfl⟩) hexec
  exact ⟨w, hentry, reach_cluster hw⟩

end Wired
end Comex
