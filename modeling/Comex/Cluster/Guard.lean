import Comex.Cluster.Transfer

/-!
# The checks of `do_write` and `do_read`

Before they post a work request, `do_write` and `do_read` compare, in 64-bit arithmetic,
where a transfer ends with the end of the 4 MiB chunk it begins in, on either side, and
the remote chunk with the number of chunks the peer announced.  Then they look the chunks
up in `dmapages` and `remote_addr`.

## Main definitions

* `ControlBlock.transfer` — the body the two functions share.
* `Inside` — look-ups in range, and both ends of the transfer in one chunk each.
* `Touches` — the bytes a posted request touches belong to registered chunks.
* `Harmless` — what the checks leave to the caller.

## Main results

* `transfer_ok_iff` — what the checks let through.
* `contained_iff` — **for which transfers they keep to registered memory.**
* `misaligned_iff` — on transfers of the kernel's sizes the first is `misaligned`.
-/

namespace Comex

open Layout (bufSize)

/-! ### The two functions -/

/-- `RPING_BUFSIZE`, as it enters 64-bit arithmetic. -/
def rpingBufsize : UInt64 := 4 * 1024 * 1024

@[simp] theorem toNat_rpingBufsize : rpingBufsize.toNat = bufSize := rfl

/-- What a transfer reads of `struct krping_cb`, and the length of `dmapages`.  The two tables
are C arrays: an index past the end yields what lies there. -/
structure ControlBlock where
  numbigpages : ℤ
  dmapages : UInt64 → UInt64
  /-- `dma_mr->rkey`. -/
  lkey : UInt32
  remoteRkey : UInt32
  remotePcount : UInt32
  remoteAddr : UInt64 → UInt64

/-- `IB_WR_RDMA_WRITE` and `IB_WR_RDMA_READ`. -/
inductive Opcode
  | rdmaWrite
  | rdmaRead
  deriving DecidableEq

/-- What goes to `ib_post_send`. -/
structure WorkRequest where
  opcode : Opcode
  rkey : UInt32
  lkey : UInt32
  length : UInt32
  addr : UInt64
  remoteAddr : UInt64
  deriving DecidableEq

/-- The two branches that return 1. -/
inductive Refusal
  /-- `ALERT, BUFFER MISALIGNMENT FOUND`. -/
  | misalignment
  /-- `ALERT WRITE`, `ALERT READ`. -/
  | alert
  deriving DecidableEq

namespace ControlBlock

variable (cb : ControlBlock) (localOffset remoteOffset size : UInt64)

/-- What `do_write` and `do_read` do up to `ib_post_send`.  The length of a scatter-gather
entry has 32 bits. -/
def transfer (opcode : Opcode) : Except Refusal WorkRequest :=
  if localOffset % rpingBufsize + size > rpingBufsize ∨
      remoteOffset % rpingBufsize + size > rpingBufsize then
    .error .misalignment
  else if remoteOffset / rpingBufsize > cb.remotePcount.toUInt64 then
    .error .alert
  else
    .ok {
      opcode
      rkey := cb.remoteRkey
      lkey := cb.lkey
      length := size.toUInt32
      addr := cb.dmapages (localOffset / rpingBufsize) + localOffset % rpingBufsize
      remoteAddr := cb.remoteAddr (remoteOffset / rpingBufsize) + remoteOffset % rpingBufsize }

/-- `do_write`. -/
def doWrite : Except Refusal WorkRequest :=
  cb.transfer localOffset remoteOffset size .rdmaWrite

/-- `do_read`. -/
def doRead : Except Refusal WorkRequest :=
  cb.transfer localOffset remoteOffset size .rdmaRead

/-! ### What the checks should give -/

/-- The bytes of the transfer at `offset` lie in the chunk of the first. -/
def InChunk (offset size : UInt64) : Prop :=
  ∀ k, offset.toNat ≤ k → k < offset.toNat + size.toNat → k / bufSize = offset.toNat / bufSize

/-- The transfer lies inside existing memory. -/
structure Inside : Prop where
  /-- The index into `dmapages`. -/
  local_lt : ((localOffset.toNat / bufSize : ℕ) : ℤ) < cb.numbigpages
  /-- The index into `remote_addr`. -/
  remote_lt : remoteOffset.toNat / bufSize < cb.remotePcount.toNat
  local_chunk : InChunk localOffset size
  remote_chunk : InChunk remoteOffset size

/-- The bytes of the node's registered chunks. -/
def localBytes : Set UInt64 :=
  {a | ∃ i o : UInt64, (i.toNat : ℤ) < cb.numbigpages ∧ o.toNat < bufSize ∧ a = cb.dmapages i + o}

/-- The bytes of the peer's. -/
def remoteBytes : Set UInt64 :=
  {a | ∃ i o : UInt64, i.toNat < cb.remotePcount.toNat ∧ o.toNat < bufSize ∧
    a = cb.remoteAddr i + o}

/-- Each byte the request reads or writes is one of these. -/
def Touches (wr : WorkRequest) : Prop :=
  ∀ k : UInt64, k.toNat < wr.length.toNat →
    wr.addr + k ∈ cb.localBytes ∧ wr.remoteAddr + k ∈ cb.remoteBytes

/-- What passes the checks lies inside, and touches registered memory only. -/
def Contained (result : Except Refusal WorkRequest) : Prop :=
  ∀ wr, result = .ok wr → cb.Inside localOffset remoteOffset size ∧ cb.Touches wr

/-- Of the transfers whose remote chunk is at most `remote_pcount`: not both sums of the
first check reach `2 ^ 64`, and where both transfers end in their chunks, the local one
is there and the remote one is not the one past the last. -/
structure Harmless : Prop where
  no_wrap : remoteOffset.toNat / bufSize ≤ cb.remotePcount.toNat →
    2 ^ 64 ≤ localOffset.toNat % bufSize + size.toNat →
    remoteOffset.toNat % bufSize + size.toNat < 2 ^ 64
  chunks : remoteOffset.toNat / bufSize ≤ cb.remotePcount.toNat →
    localOffset.toNat % bufSize + size.toNat ≤ bufSize →
    remoteOffset.toNat % bufSize + size.toNat ≤ bufSize →
    ((localOffset.toNat / bufSize : ℕ) : ℤ) < cb.numbigpages ∧
      remoteOffset.toNat / bufSize ≠ cb.remotePcount.toNat

/-! ### The checks in whole numbers -/

variable {cb localOffset remoteOffset size}

/-- A transfer lies in one chunk if its end does. -/
theorem inChunk_iff : InChunk localOffset size ↔
    localOffset.toNat % bufSize + size.toNat ≤ bufSize := by
  unfold InChunk bufSize
  constructor
  · intro h
    by_contra hout
    -- the first byte of the next chunk
    have hnext := h ((localOffset.toNat / 4194304 + 1) * 4194304) (by omega) (by omega)
    omega
  · intro h k h1 h2
    omega

/-- One sum of the first check, which sees it if it does not wrap around. -/
theorem sum_gt_iff (offset size : UInt64) : offset % rpingBufsize + size > rpingBufsize ↔
    bufSize < offset.toNat % bufSize + size.toNat ∧
      offset.toNat % bufSize + size.toNat < 2 ^ 64 := by
  have h1 := size.toNat_lt
  simp only [gt_iff_lt, UInt64.lt_iff_toNat_lt, UInt64.toNat_add, UInt64.toNat_mod,
    toNat_rpingBufsize, bufSize]
  omega

/-- **What passes the checks**: the sums wrap around on both sides or on neither. -/
theorem transfer_ok_iff (opcode : Opcode) :
    (∃ wr, cb.transfer localOffset remoteOffset size opcode = .ok wr) ↔
      remoteOffset.toNat / bufSize ≤ cb.remotePcount.toNat ∧
        (localOffset.toNat % bufSize + size.toNat ≤ bufSize ∧
            remoteOffset.toNat % bufSize + size.toNat ≤ bufSize ∨
          2 ^ 64 ≤ localOffset.toNat % bufSize + size.toNat ∧
            2 ^ 64 ≤ remoteOffset.toNat % bufSize + size.toNat) := by
  have hl := sum_gt_iff localOffset size
  have hr := sum_gt_iff remoteOffset size
  have hcount : remoteOffset / rpingBufsize > cb.remotePcount.toUInt64 ↔
      cb.remotePcount.toNat < remoteOffset.toNat / bufSize := by
    rw [gt_iff_lt, UInt64.lt_iff_toNat_lt, UInt64.toNat_div, UInt32.toNat_toUInt64,
      toNat_rpingBufsize]
  unfold transfer
  split
  · next hmis =>
    rw [hl, hr] at hmis
    -- a size that wraps one sum around is too large for the other
    have h1 := size.toNat_lt
    unfold bufSize at *
    simp only [reduceCtorEq, exists_false, false_iff]
    omega
  · next hmis =>
    rw [hl, hr] at hmis
    split
    · next halert =>
      rw [hcount] at halert
      simp only [reduceCtorEq, exists_false, false_iff]
      omega
    · next halert =>
      rw [hcount] at halert
      unfold bufSize at *
      simp only [Except.ok.injEq, exists_eq', true_iff]
      omega

/-- A request inside existing memory touches registered bytes only. -/
theorem Inside.touches (h : cb.Inside localOffset remoteOffset size) {opcode : Opcode}
    {wr : WorkRequest} (hwr : cb.transfer localOffset remoteOffset size opcode = .ok wr) :
    cb.Touches wr := by
  have hl := inChunk_iff.1 h.local_chunk
  have hr := inChunk_iff.1 h.remote_chunk
  unfold transfer at hwr
  split at hwr
  · cases hwr
  split at hwr
  · cases hwr
  cases hwr
  intro k hk
  have hk' : k.toNat < size.toNat :=
    lt_of_lt_of_le hk (by rw [UInt64.toNat_toUInt32]; exact Nat.mod_le _ _)
  have hlast : ∀ offset : UInt64, offset.toNat % bufSize + size.toNat ≤ bufSize →
      (offset % rpingBufsize + k).toNat < bufSize := by
    intro offset hoff
    rw [UInt64.toNat_add, UInt64.toNat_mod, toNat_rpingBufsize]
    exact lt_of_le_of_lt (Nat.mod_le _ _) (by omega)
  constructor
  · refine ⟨localOffset / rpingBufsize, localOffset % rpingBufsize + k, ?_, hlast _ hl,
      UInt64.add_assoc _ _ _⟩
    rw [UInt64.toNat_div, toNat_rpingBufsize]
    exact h.local_lt
  · refine ⟨remoteOffset / rpingBufsize, remoteOffset % rpingBufsize + k, ?_, hlast _ hr,
      UInt64.add_assoc _ _ _⟩
    rw [UInt64.toNat_div, toNat_rpingBufsize]
    exact h.remote_lt

/-! ### When they keep to registered memory -/

theorem transfer_contained_iff (opcode : Opcode) :
    cb.Contained localOffset remoteOffset size
        (cb.transfer localOffset remoteOffset size opcode) ↔
      cb.Harmless localOffset remoteOffset size := by
  constructor
  · intro h
    constructor
    · -- a transfer that wraps both sums around passes, and is longer than a chunk
      intro hcount hl
      by_contra hr
      obtain ⟨wr, hwr⟩ := (transfer_ok_iff opcode).2 ⟨hcount, .inr ⟨hl, Nat.le_of_not_lt hr⟩⟩
      have hin := inChunk_iff.1 (h wr hwr).1.local_chunk
      unfold bufSize at *
      omega
    · intro hcount hl hr
      obtain ⟨wr, hwr⟩ := (transfer_ok_iff opcode).2 ⟨hcount, .inl ⟨hl, hr⟩⟩
      have hin := (h wr hwr).1
      exact ⟨hin.local_lt, Nat.ne_of_lt hin.remote_lt⟩
  · intro h wr hwr
    have hin : cb.Inside localOffset remoteOffset size := by
      obtain ⟨hcount, ⟨hl, hr⟩ | ⟨hl, hr⟩⟩ := (transfer_ok_iff opcode).1 ⟨wr, hwr⟩
      · obtain ⟨hlocal, hremote⟩ := h.chunks hcount hl hr
        exact ⟨hlocal, Nat.lt_of_le_of_ne hcount hremote, inChunk_iff.2 hl, inChunk_iff.2 hr⟩
      · exact absurd (h.no_wrap hcount hl) (Nat.not_lt.2 hr)
    exact ⟨hin, hin.touches hwr⟩

/-- **`do_write` and `do_read` keep a transfer to registered memory exactly if it is
harmless**: neither looks at `numbigpages`, the remote chunk past the last one passes, and
so does a size near `2 ^ 64`. -/
theorem contained_iff (cb : ControlBlock) (localOffset remoteOffset size : UInt64) :
    (cb.Contained localOffset remoteOffset size (cb.doWrite localOffset remoteOffset size) ↔
      cb.Harmless localOffset remoteOffset size) ∧
    (cb.Contained localOffset remoteOffset size (cb.doRead localOffset remoteOffset size) ↔
      cb.Harmless localOffset remoteOffset size) :=
  ⟨transfer_contained_iff .rdmaWrite, transfer_contained_iff .rdmaRead⟩

/-- Two nodes with a chunk each. -/
def oneChunk : ControlBlock where
  numbigpages := 1
  dmapages := fun i => 0x10000000 * (i + 1)
  lkey := 7
  remoteRkey := 9
  remotePcount := 1
  remoteAddr := fun i => 0x20000000 * (i + 1)

/-- A page to the chunk past the peer's last. -/
theorem not_contained : ¬ ∀ (cb : ControlBlock) (localOffset remoteOffset size : UInt64),
    1 ≤ size →
      cb.Contained localOffset remoteOffset size (cb.doWrite localOffset remoteOffset size) ∧
      cb.Contained localOffset remoteOffset size (cb.doRead localOffset remoteOffset size) := by
  intro h
  have hpost : oneChunk.doWrite 0 4194304 4096 = .ok {
      opcode := .rdmaWrite
      rkey := 9
      lkey := 7
      length := 4096
      addr := 0x10000000
      remoteAddr := 0x40000000 } := by decide
  have hin := ((h oneChunk 0 4194304 4096 (by decide)).1 _ hpost).1.remote_lt
  exact absurd hin (by decide)

end ControlBlock

/-! ### The kernel's transfers -/

/-- On the sizes of the kernel's transfers the first check is the one of `misaligned`. -/
theorem misaligned_iff (cb : ControlBlock) (opcode : Opcode)
    {localOffset remoteOffset size : UInt64} (h : size.toNat ≤ 2 ^ 63) :
    cb.transfer localOffset remoteOffset size opcode = .error .misalignment ↔
      misaligned localOffset.toNat remoteOffset.toNat size.toNat := by
  have hl := ControlBlock.sum_gt_iff localOffset size
  have hr := ControlBlock.sum_gt_iff remoteOffset size
  unfold ControlBlock.transfer misaligned
  unfold bufSize at *
  split
  · next hmis =>
    rw [hl, hr] at hmis
    simp only [true_iff]
    omega
  · next hmis =>
    rw [hl, hr] at hmis
    split <;> simp only [reduceCtorEq, Except.error.injEq, false_iff] <;> omega

end Comex
