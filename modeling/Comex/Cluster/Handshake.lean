import Comex.Cluster.Config
import Comex.Lib.Runs

/-!
# Setting a connection up

`krping_run_all` on both sides of a connection: the server listens and accepts, the client
resolves the address and the route and connects, both send their buffer info, wait for
the other's and read its page table.  A thread waits for `state` to be at least some value
of `enum test_state`, and the events of the connection manager and the completions set it,
whatever it is.

Each call of a side brings it one event of the connection manager, which may come at any
later time, `ESTABLISHED` too; after an error nothing but `DISCONNECTED` comes.

## Main definitions

* `TestState`, `Pc`, `Endpoint`, `Handshake` — the two sides.
* `step` — the steps of the threads and the handlers.
* `Order`, `Knows` — how far the two sides are, and what they know.

## Main results

* `recvInfo_bufferInfo` — a `buffer_info` is read back.
* `reach_agree` — **a side that reaches `RDMA_READY` knows the other.**
-/

namespace Comex

/-- `enum test_state`. -/
inductive TestState
  | idle
  | connectRequest
  | addrResolved
  | routeResolved
  | connected
  | recvInfo
  | rdmaReady
  | error
  deriving DecidableEq, Repr

/-- The values of `enum test_state`. -/
def TestState.val : TestState → ℕ
  | .idle => 1
  | .connectRequest => 2
  | .addrResolved => 3
  | .routeResolved => 4
  | .connected => 5
  | .recvInfo => 6
  | .rdmaReady => 7
  | .error => 8

/-- Whether a side has been connected, and no error reported. -/
def TestState.late : TestState → Bool
  | .connected | .recvInfo | .rdmaReady => true
  | _ => false

theorem TestState.late_or_error {t : TestState} (h : TestState.connected.val ≤ t.val) :
    t.late = true ∨ t = .error := by
  cases t <;> first | exact Or.inl rfl | exact Or.inr rfl | exact absurd h (by decide)

theorem TestState.le_of_late {t : TestState} (h : t.late = true) :
    TestState.connected.val ≤ t.val := by
  cases t <;> first | exact absurd h (by decide) | decide

theorem TestState.of_recvInfo_le {t : TestState} (h : TestState.recvInfo.val ≤ t.val) :
    t = .recvInfo ∨ t = .rdmaReady ∨ t = .error := by
  cases t <;> simp [TestState.val] at h ⊢

/-- The two sides of a connection. -/
inductive Side
  | server
  | client
  deriving DecidableEq, Repr

/-- The other side. -/
def Side.other : Side → Side
  | .server => .client
  | .client => .server

@[simp] theorem Side.other_other (x : Side) : x.other.other = x := by cases x <;> rfl

@[simp] theorem Side.other_ne (x : Side) : x.other ≠ x := by cases x <;> decide

@[simp] theorem Side.ne_other (x : Side) : x ≠ x.other := by cases x <;> decide

theorem Side.eq_other {x y : Side} (h : y ≠ x) : y = x.other := by
  cases x <;> cases y <;> first | rfl | exact absurd rfl h

/-- What a node has for a connection before it is set up. -/
structure Host where
  /-- `CONF_nodeID`. -/
  nodeID : ℕ
  /-- `CONF_localpagecount`. -/
  localpagecount : ℕ
  /-- `dma_mr->rkey`. -/
  rkey : ℕ
  /-- The DMA address of `dmapages`. -/
  ptableDmaAddr : ℕ
  /-- The 8-byte words at the addresses that `dma_mr` covers. -/
  memory : ℕ → ℕ
  nodeID_lt : nodeID < 2 ^ 32
  localpagecount_lt : localpagecount < 2 ^ 32
  rkey_lt : rkey < 2 ^ 32
  ptable_lt : ptableDmaAddr < 2 ^ 64

namespace Host

/-- `n` words as an RDMA READ gets them. -/
def words (h : Host) (addr n : ℕ) : List ℕ := (List.range n).map fun k => h.memory (addr + 8 * k)

/-- `dmapages`. -/
def dmapages (h : Host) : List ℕ := h.words h.ptableDmaAddr h.localpagecount

end Host

namespace Handshake

/-- Where `krping_run_all` is. -/
inductive Pc
  | start
  /-- Waits in `krping_bind_server` or `krping_bind_client`. -/
  | bind
  /-- Sets the queue pair and the buffers up. -/
  | setup
  /-- Waits in `krping_accept` or `krping_connect_client`. -/
  | connect
  /-- Begins `send_buffer_info`. -/
  | test
  /-- Has posted its info and waits for the other's. -/
  | info
  /-- Has posted the read of the other's table. -/
  | table
  /-- Has the other's table: `state` was set to `RDMA_READY`, and `sem_ready` upped. -/
  | ready
  /-- Has upped `sem_ready` too, but the read could not be posted: no table, no `RDMA_READY`. -/
  | unread
  /-- Has returned. -/
  | failed
  deriving DecidableEq, Repr

/-- Whether the thread has posted its receives and asked for the connection. -/
def Pc.posted : Pc → Bool
  | .connect | .test | .info | .table | .ready | .unread => true
  | _ => false

/-- How far the thread is from its end. -/
def Pc.left : Pc → ℕ
  | .start => 7
  | .bind => 6
  | .setup => 5
  | .connect => 4
  | .test => 3
  | .info => 2
  | .table => 1
  | .ready | .unread | .failed => 0

/-- The events of the connection manager. -/
inductive CmEvent
  | addrResolved
  | routeResolved
  | connectRequest
  | established
  deriving DecidableEq, Repr

/-- What a `krping_cb` says of the other side. -/
structure Remote where
  pcount : ℕ
  rkey : ℕ
  nodeID : ℕ
  dmabufPtr : ℕ
  deriving DecidableEq, Repr

/-- A `krping_cb` with its thread. -/
structure Endpoint where
  pc : Pc
  state : TestState
  remote : Remote
  remoteAddr : List ℕ
  semRead : ℕ
  deriving DecidableEq, Repr

end Handshake

open Handshake in
/-- The `krping_cb`s of a connection, and what is under way. -/
structure Handshake where
  cb : Side → Endpoint
  /-- The event the connection manager has for a side. -/
  event : Side → Option CmEvent
  /-- The connection manager has reported an error. -/
  down : Side → Bool
  /-- The buffer infos in flight to a side. -/
  infos : Side → List (List UInt8)

namespace Handshake

open Words (toBytes ofBytes)

/-- A big-endian word of a `buffer_info`. -/
def be (w x : ℕ) : List UInt8 := (toBytes w x).reverse

/-- `ntohl` and `ntohll` of the word at an offset. -/
def ntoh (off w : ℕ) (bs : List UInt8) : ℕ := ofBytes ((bs.drop off).take w).reverse

/-- The `buffer_info` that `send_buffer_info` builds. -/
def bufferInfo (h : Host) : List UInt8 :=
  be 8 h.ptableDmaAddr ++ (be 4 h.rkey ++ (be 4 h.localpagecount ++
    (be 4 h.nodeID ++ List.replicate 4 0)))

/-- A `krping_cb` from `kzalloc`. -/
def Endpoint.init : Endpoint := ⟨.start, .idle, ⟨0, 0, 0, 0⟩, [], 0⟩

/-- `universal_recv_handler` with immediate 2. -/
def Endpoint.recvInfo (e : Endpoint) (bs : List UInt8) : Endpoint :=
  { e with
    remote :=
      { pcount := ntoh 12 4 bs
        rkey := ntoh 8 4 bs
        nodeID := ntoh 16 4 bs
        dmabufPtr := ntoh 0 8 bs }
    state := .recvInfo }

/-- What an event sets `state` to. -/
def CmEvent.state : CmEvent → TestState
  | .addrResolved => .addrResolved
  | .routeResolved => .routeResolved
  | .connectRequest => .connectRequest
  | .established => .connected

/-- `krping_cma_event_handler`. -/
def Endpoint.cmaEvent (e : Endpoint) (ev : CmEvent) : Endpoint := { e with state := ev.state }

/-- What each side starts with. -/
def init : Handshake := ⟨fun _ => .init, fun _ => none, fun _ => false, fun _ => []⟩

/-- A step of a thread or of a handler. -/
inductive Step
  /-- `rdma_listen` or `rdma_resolve_addr`. -/
  | bind (x : Side)
  /-- The wait of `krping_bind_server` or `krping_bind_client` is over. -/
  | bound (x : Side)
  /-- The queue pair and the receives, then `rdma_accept` or `rdma_connect`. -/
  | setUp (x : Side)
  /-- The wait of `krping_accept` or `krping_connect_client` is over. -/
  | connected (x : Side)
  /-- `send_buffer_info` up to its wait. -/
  | sendInfo (x : Side)
  /-- The wait for `RECV_INFO` is over, and the read of the table is posted. -/
  | readTable (x : Side)
  /-- `sem_read` is upped. -/
  | complete (x : Side)
  /-- `do_read_bufferptr` gets `sem_read`, and `sem_ready` is upped. -/
  | tableRead (x : Side)
  /-- The connection manager delivers an event. -/
  | event (x : Side)
  /-- The receive of a buffer info completes. -/
  | recv (x : Side)
  /-- A call of a thread that has not posted its receives fails. -/
  | abort (x : Side)
  /-- The address is resolved, and `rdma_resolve_route` fails. -/
  | noRoute (x : Side)
  /-- The connection manager reports an error or `DISCONNECTED`. -/
  | fail (x : Side)
  /-- A send or read completes with an error. -/
  | cqError (x : Side)
  /-- `send_buffer_info` up to its wait, when the info cannot be posted. -/
  | noSend (x : Side)
  /-- The wait for `RECV_INFO` is over, and the read cannot be posted. -/
  | noRead (x : Side)
  deriving DecidableEq, Repr

/-- The side whose thread or handler takes a step. -/
def Step.side : Step → Side
  | .bind x | .bound x | .setUp x | .connected x | .sendInfo x => x
  | .readTable x | .complete x | .tableRead x | .event x | .recv x => x
  | .abort x | .noRoute x | .fail x | .cqError x | .noSend x | .noRead x => x

/-- The value `bind` waits for. -/
def bindState : Side → TestState
  | .server => .connectRequest
  | .client => .routeResolved

/-- The events after the calls at the end of the setup: an acceptance establishes both
sides, and a request reaches a server that listens. -/
def requested (s : Handshake) : Side → Side → Option CmEvent
  | .server => fun _ => some .established
  | .client =>
    if (s.cb .server).pc = .start then s.event
    else Function.update s.event .server (some .connectRequest)

/-- One step, if it is enabled. -/
def step (host : Side → Host) (s : Handshake) : Step → Option Handshake
  | .bind x =>
    if (s.cb x).pc = .start then
      some { s with
        cb := Function.update s.cb x { s.cb x with pc := .bind }
        event := if x = .client then Function.update s.event x (some .addrResolved) else s.event }
    else none
  | .bound x =>
    if (s.cb x).pc = .bind ∧ (bindState x).val ≤ (s.cb x).state.val then
      some { s with
        cb := Function.update s.cb x { s.cb x with
          pc := if (s.cb x).state = bindState x then .setup else .failed } }
    else none
  | .setUp x =>
    if (s.cb x).pc = .setup then
      some { s with
        cb := Function.update s.cb x { s.cb x with pc := .connect }
        event := requested s x }
    else none
  | .connected x =>
    if (s.cb x).pc = .connect ∧ TestState.connected.val ≤ (s.cb x).state.val then
      some { s with
        cb := Function.update s.cb x { s.cb x with
          pc := if (s.cb x).state = .error then .failed else .test } }
    else none
  | .sendInfo x =>
    if (s.cb x).pc = .test then
      some { s with
        cb := Function.update s.cb x { s.cb x with pc := .info }
        infos := Function.update s.infos x.other (s.infos x.other ++ [bufferInfo (host x)]) }
    else none
  | .readTable x =>
    if (s.cb x).pc = .info ∧ TestState.recvInfo.val ≤ (s.cb x).state.val then
      some { s with cb := Function.update s.cb x { s.cb x with pc := .table } }
    else none
  | .complete x =>
    if (s.cb x).pc = .table ∧ (s.cb x).semRead = 0 ∧ (s.cb x).state ≠ .error ∧
        (s.cb x).remote.rkey = (host x.other).rkey then
      some { s with
        cb := Function.update s.cb x { s.cb x with
          remoteAddr := (host x.other).words (s.cb x).remote.dmabufPtr (s.cb x).remote.pcount
          semRead := 1 } }
    else none
  | .tableRead x =>
    if (s.cb x).pc = .table ∧ 0 < (s.cb x).semRead then
      some { s with
        cb := Function.update s.cb x { s.cb x with
          semRead := (s.cb x).semRead - 1
          state := .rdmaReady
          pc := .ready } }
    else none
  | .event x =>
    if s.down x = false then
      (s.event x).map fun e =>
        { s with
          cb := Function.update s.cb x ((s.cb x).cmaEvent e)
          event :=
            Function.update s.event x (if e = .addrResolved then some .routeResolved else none) }
    else none
  | .recv x =>
    if (s.cb x).pc.posted = true ∧ (s.cb x).state ≠ .error then
      (s.infos x).head?.map fun bs =>
        { s with
          cb := Function.update s.cb x ((s.cb x).recvInfo bs)
          infos := Function.update s.infos x (s.infos x).tail }
    else none
  | .abort x =>
    if (s.cb x).pc = .start ∨ (s.cb x).pc = .setup then
      some { s with cb := Function.update s.cb x { s.cb x with pc := .failed } }
    else none
  | .noRoute x =>
    if s.down x = false ∧ s.event x = some .addrResolved then
      some { s with
        cb := Function.update s.cb x ((s.cb x).cmaEvent .addrResolved)
        event := Function.update s.event x none }
    else none
  | .fail x =>
    some { s with
      cb := Function.update s.cb x { s.cb x with state := .error }
      down := Function.update s.down x true }
  | .cqError x =>
    if (s.cb x).pc.posted = true then
      some { s with cb := Function.update s.cb x { s.cb x with state := .error } }
    else none
  | .noSend x =>
    if (s.cb x).pc = .test then
      some { s with cb := Function.update s.cb x { s.cb x with pc := .info } }
    else none
  | .noRead x =>
    if (s.cb x).pc = .info ∧ TestState.recvInfo.val ≤ (s.cb x).state.val then
      some { s with cb := Function.update s.cb x { s.cb x with pc := .unread } }
    else none

theorem CmEvent.state_ne (ev : CmEvent) :
    ev.state ≠ .recvInfo ∧ ev.state ≠ .rdmaReady ∧ ev.state ≠ .error := by
  cases ev <;> exact ⟨TestState.noConfusion, TestState.noConfusion, TestState.noConfusion⟩

@[simp, grind =] theorem requested_server (s : Handshake) (y : Side) :
    s.requested .server y = some .established := rfl

@[simp, grind =] theorem requested_client (s : Handshake) :
    s.requested .client .client = s.event .client := by
  simp only [requested]
  split <;> rfl

/-- The runs of a connection's setup. -/
def machine (host : Side → Host) : Machine Handshake Step :=
  Machine.ofPartial init (step host)

/-- The states the setup can reach. -/
abbrev Reach (host : Side → Host) (s : Handshake) : Prop :=
  Machine.Reach (machine host) Machine.free s

/-! ### The buffer info -/

/-- What a `buffer_info` says. -/
def told (h : Host) : Remote := ⟨h.localpagecount, h.rkey, h.nodeID, h.ptableDmaAddr⟩

theorem be_ntoh {w x : ℕ} (h : x < 256 ^ w) (front rest : List UInt8) :
    ntoh front.length w (front ++ (be w x ++ rest)) = x := by
  rw [ntoh, List.drop_left' rfl]
  exact Words.ofBytes_reverse h rest

theorem length_be (w x : ℕ) : (be w x).length = w := by
  rw [be, List.length_reverse, Words.length_toBytes]

/-- **The info is read back.** -/
theorem recvInfo_bufferInfo (e : Endpoint) (h : Host) :
    e.recvInfo (bufferInfo h) = { e with remote := told h, state := .recvInfo } := by
  have hbuf : ntoh 0 8 (bufferInfo h) = h.ptableDmaAddr := be_ntoh h.ptable_lt [] _
  have hrkey : ntoh 8 4 (bufferInfo h) = h.rkey := by
    rw [← length_be 8 h.ptableDmaAddr]
    exact be_ntoh h.rkey_lt _ _
  have hsize : ntoh 12 4 (bufferInfo h) = h.localpagecount := by
    have hlen : (be 8 h.ptableDmaAddr ++ be 4 h.rkey).length = 12 := by
      rw [List.length_append, length_be, length_be]
    rw [← hlen, bufferInfo, ← List.append_assoc]
    exact be_ntoh h.localpagecount_lt _ _
  have hid : ntoh 16 4 (bufferInfo h) = h.nodeID := by
    have hlen : (be 8 h.ptableDmaAddr ++ be 4 h.rkey ++ be 4 h.localpagecount).length = 16 := by
      rw [List.length_append, List.length_append, length_be, length_be, length_be]
    rw [← hlen, bufferInfo, ← List.append_assoc, ← List.append_assoc]
    exact be_ntoh h.nodeID_lt _ _
  rw [Endpoint.recvInfo, hbuf, hrkey, hsize, hid]
  rfl

/-! ### The order of what happens -/

section Order

variable {host : Side → Host} {s s' : Handshake} {x : Side} {e e' : Endpoint}
  {c : Option CmEvent}

@[simp] theorem update_other {β : Type} (f : Side → β) (x : Side) (b : β) :
    Function.update f x b x.other = f x.other := Function.update_of_ne x.other_ne b f

/-- What holds of every side still holds when one is assigned. -/
theorem forall_update {β : Type} {P : Side → β → Prop} {f : Side → β} (h : ∀ y, P y (f y))
    {x : Side} {b : β} (hb : P x b) : ∀ y, P y (Function.update f x b y) :=
  (Function.forall_update_iff f P).mpr ⟨hb, fun y _ => h y⟩

/-- What a side itself says of the event to come. -/
structure Local (x : Side) (e : Endpoint) (c : Option CmEvent) : Prop where
  start : e.pc = .start → c = none ∧ e.state ≠ bindState x
  bind : e.pc = .bind → e.state = bindState x → c = none
  setup : e.pc = .setup → c = none ∧ e.state.late = false
  posted : e.pc.posted = true → c = none ∨ c = some .established
  connected : e.pc.posted = true → e.state = .connected → c = none

theorem Local.error (h : Local x e c) : Local x { e with state := .error } c := by
  refine ⟨fun hp => ⟨(h.start hp).1, ?_⟩, fun _ hstate => ?_, fun hp => ⟨(h.setup hp).1, rfl⟩,
    h.posted, fun _ hstate => ?_⟩
  · cases x <;> simp [bindState]
  · cases x <;> exact TestState.noConfusion hstate
  · exact TestState.noConfusion hstate

theorem Local.failed (hpc : e.pc = .failed) : Local x e c := by
  constructor <;> intro hp <;> rw [hpc] at hp <;> exact absurd hp (by decide)

/-- A thread that has posted its receives goes on. -/
theorem Local.go (h : Local x e c) (hp : e.pc.posted = true) (hp' : e'.pc.posted = true)
    (hstate : e'.state = .connected → e.state = .connected) : Local x e' c := by
  refine ⟨fun hpc => ?_, fun hpc => ?_, fun hpc => ?_, fun _ => h.posted hp, fun _ hs =>
    h.connected hp (hstate hs)⟩ <;> rw [hpc] at hp' <;> exact absurd hp' (by decide)

/-- An event is delivered. -/
theorem Local.event {ev : CmEvent} (h : Local x e (some ev)) :
    Local x (e.cmaEvent ev) (if ev = .addrResolved then some .routeResolved else none) := by
  refine ⟨fun hp => ?_, fun hp hs => ?_, fun hp => ?_, fun hp => ?_, fun _ hs => ?_⟩
  · exact absurd (h.start hp).1 (by simp)
  · cases ev <;> first | rfl | (cases x <;> exact TestState.noConfusion hs)
  · exact absurd (h.setup hp).1 (by simp)
  · rcases h.posted hp with hev | hev
    · exact absurd hev (by simp)
    · rw [Option.some.inj hev]
      exact Or.inl rfl
  · cases ev <;> first | rfl | exact TestState.noConfusion hs

/-- How far the threads and the connection manager are with each other. -/
structure Order (host : Side → Host) (s : Handshake) : Prop where
  side : ∀ x, Local x (s.cb x) (s.event x)
  /-- Until the client asks, the server hears nothing. -/
  unasked : 5 ≤ (s.cb .client).pc.left → (s.cb .server).pc = .start ∨
    (s.cb .server).pc = .failed ∨ ((s.cb .server).pc = .bind ∧ s.event .server = none ∧
      (s.cb .server).state ≠ .connectRequest)
  /-- Until the server accepts, the client hears nothing. -/
  unaccepted : 5 ≤ (s.cb .server).pc.left → (s.cb .client).pc.posted = true →
    (s.cb .client).pc = .connect ∧ s.event .client = none ∧ (s.cb .client).state.late = false
  /-- An info is sent once. -/
  infos : ∀ x, s.infos x = [] ∨
    (s.infos x = [bufferInfo (host x.other)] ∧ (s.cb x.other).pc.left ≤ 2)
  recvd : ∀ x, (s.cb x).state = .recvInfo →
    s.infos x = [] ∧ (s.cb x.other).pc.left ≤ 2

/-- **No thread goes back**, whatever step is taken and whichever side takes it.  The other
side's place does not move; the own place moves on where the step is the thread's, and stays
where it is the connection manager's or a completion's. -/
theorem left_le {a : Step} (hs : s.step host a = some s') (y : Side) :
    (s'.cb y).pc.left ≤ (s.cb y).pc.left := by
  have key : ∀ {x : Side} {e : Endpoint}, e.pc.left ≤ (s.cb x).pc.left →
      (Function.update s.cb x e y).pc.left ≤ (s.cb y).pc.left := fun {x e} h =>
    forall_update (P := fun y (e : Endpoint) => e.pc.left ≤ (s.cb y).pc.left) (fun _ => le_rfl) h y
  cases a <;> simp only [step, Option.ite_none_right_eq_some, Option.some.injEq,
    Option.map_eq_some_iff] at hs
  -- the thread's own steps: the guard names the place it leaves
  case bind x =>
    obtain ⟨hc, rfl⟩ := hs
    apply key
    show Pc.left .bind ≤ _
    rw [hc]
    decide
  case bound x =>
    -- the wait ends in the setup or, with another `state`, in an error
    obtain ⟨hc, rfl⟩ := hs
    apply key
    rw [hc.1]
    simp only
    split <;> decide
  case setUp x =>
    obtain ⟨hc, rfl⟩ := hs
    apply key
    show Pc.left .connect ≤ _
    rw [hc]
    decide
  case connected x =>
    obtain ⟨hc, rfl⟩ := hs
    apply key
    rw [hc.1]
    simp only
    split <;> decide
  case sendInfo x =>
    obtain ⟨hc, rfl⟩ := hs
    apply key
    show Pc.left .info ≤ _
    rw [hc]
    decide
  case readTable x =>
    obtain ⟨hc, rfl⟩ := hs
    apply key
    show Pc.left .table ≤ _
    rw [hc.1]
    decide
  case complete x =>
    -- the completion ups `sem_read`: the thread has yet to get it
    obtain ⟨hc, rfl⟩ := hs
    exact key le_rfl
  case tableRead x =>
    obtain ⟨hc, rfl⟩ := hs
    exact key (Nat.zero_le _)
  -- events and receives set `state` and leave the thread where it is
  case event x =>
    obtain ⟨hc, ev, -, rfl⟩ := hs
    exact key le_rfl
  case recv x =>
    obtain ⟨hc, bs, -, rfl⟩ := hs
    exact key le_rfl
  case abort x =>
    -- a thread that has returned has nothing left
    obtain ⟨hc, rfl⟩ := hs
    exact key (Nat.zero_le _)
  case noRoute x =>
    obtain ⟨hc, rfl⟩ := hs
    exact key le_rfl
  case fail x =>
    obtain rfl := hs
    exact key le_rfl
  case cqError x =>
    obtain ⟨hc, rfl⟩ := hs
    exact key le_rfl
  case noSend x =>
    obtain ⟨hc, rfl⟩ := hs
    apply key
    show Pc.left .info ≤ _
    rw [hc]
    decide
  case noRead x =>
    obtain ⟨hc, rfl⟩ := hs
    exact key (Nat.zero_le _)

/-- **A step of one side leaves the other's `krping_cb`**, and what the connection manager has
for it, unless the step asks for the connection or accepts it: `rdma_connect` and `rdma_accept`
are the only calls that reach across. -/
theorem step_frame {a : Step} (hs : s.step host a = some s') {y : Side} (hy : y ≠ a.side) :
    s'.cb y = s.cb y ∧ (s'.event y = s.event y ∨ (s'.cb a.side).pc = .connect) := by
  cases a <;> simp only [step, Option.ite_none_right_eq_some, Option.some.injEq,
    Option.map_eq_some_iff] at hs <;> simp only [Step.side] at hy ⊢
  case event x =>
    obtain ⟨-, ev, -, rfl⟩ := hs
    exact ⟨Function.update_of_ne hy _ _, Or.inl (Function.update_of_ne hy _ _)⟩
  case recv x =>
    obtain ⟨-, bs, -, rfl⟩ := hs
    exact ⟨Function.update_of_ne hy _ _, Or.inl rfl⟩
  case fail x =>
    obtain rfl := hs
    exact ⟨Function.update_of_ne hy _ _, Or.inl rfl⟩
  case bind x =>
    obtain ⟨-, rfl⟩ := hs
    refine ⟨Function.update_of_ne hy _ _, Or.inl ?_⟩
    by_cases hx : x = .client
    · simp only [if_pos hx]
      exact Function.update_of_ne hy _ _
    · simp only [if_neg hx]
  case setUp x =>
    obtain ⟨-, rfl⟩ := hs
    -- the one step that brings the other side an event
    refine ⟨Function.update_of_ne hy _ _, Or.inr ?_⟩
    simp only [Function.update_self]
  case noRoute x =>
    obtain ⟨-, rfl⟩ := hs
    exact ⟨Function.update_of_ne hy _ _, Or.inl (Function.update_of_ne hy _ _)⟩
  all_goals
    obtain ⟨-, rfl⟩ := hs
    exact ⟨Function.update_of_ne hy _ _, Or.inl rfl⟩

/-- A step that touches one `krping_cb` and no event has to show `Local` of that side only. -/
theorem Order.local_update (h : Order host s) {x : Side} {e : Endpoint}
    (he : Local x e (s.event x)) :
    ∀ y, Local y (Function.update s.cb x e y) (s.event y) :=
  forall_update (P := fun y e => Local y e (s.event y)) h.side he

/-- The same where the step takes the side's event, too. -/
theorem Order.local_update₂ (h : Order host s) {x : Side} {e : Endpoint} {c : Option CmEvent}
    (he : Local x e c) :
    ∀ y, Local y (Function.update s.cb x e y) (Function.update s.event x c y) := by
  intro y
  by_cases hy : y = x
  · subst hy
    rwa [Function.update_self, Function.update_self]
  · rw [Function.update_of_ne hy _ _, Function.update_of_ne hy _ _]
    exact h.side y

/-- A server accepts a client that waits for it: it has heard of one, so the client has asked,
and a client that has asked is not late before it is accepted. -/
theorem Order.accept_side (h : Order host s) (hc : (s.cb .server).pc = .setup) (y : Side) :
    Local y (Function.update s.cb .server { s.cb .server with pc := .connect } y)
      (some .established) := by
  obtain ⟨-, hlate⟩ := (h.side .server).setup hc
  have hasked : ¬ 5 ≤ (s.cb .client).pc.left := by
    intro hearly
    rcases h.unasked hearly with hp | hp | ⟨hp, -⟩ <;> rw [hc] at hp <;> cases hp
  cases y with
  | server =>
    rw [Function.update_self]
    refine ⟨fun hp => Pc.noConfusion hp, fun hp => Pc.noConfusion hp,
      fun hp => Pc.noConfusion hp, fun _ => Or.inr rfl, fun _ hst => ?_⟩
    rw [show (s.cb .server).state = .connected from hst] at hlate
    cases hlate
  | client =>
    rw [Function.update_of_ne (by decide) _ _]
    refine ⟨fun hp => absurd (by rw [hp]; decide) hasked,
      fun hp => absurd (by rw [hp]; decide) hasked,
      fun hp => absurd (by rw [hp]; decide) hasked, fun _ => Or.inr rfl, fun hp hst => ?_⟩
    obtain ⟨-, -, hearly⟩ := h.unaccepted (by rw [hc]; decide) hp
    rw [hst] at hearly
    cases hearly

/-- A client asks a server that has heard nothing yet: the server has not started, has failed,
or waits with another `state`. -/
theorem Order.ask_side (h : Order host s) (hc : (s.cb .client).pc = .setup) (y : Side) :
    Local y (Function.update s.cb .client { s.cb .client with pc := .connect } y)
      (s.requested .client y) := by
  obtain ⟨hnone, -⟩ := (h.side .client).setup hc
  cases y with
  | server =>
    rw [Function.update_of_ne (by decide) _ _]
    by_cases hstart : (s.cb .server).pc = .start
    · -- nobody listens: the server hears nothing of the request
      simp only [requested, if_pos hstart]
      exact h.side .server
    · simp only [requested, if_neg hstart, Function.update_self]
      rcases h.unasked (by rw [hc]; decide) with hp | hp | ⟨hp, -, hne⟩
      · exact absurd hp hstart
      · exact .failed hp
      · exact ⟨fun hp' => absurd hp' hstart, fun _ hb => absurd hb hne,
          fun hp' => absurd (hp.symm.trans hp') (by decide),
          fun hp' => absurd (hp ▸ hp') (by decide), fun hp' => absurd (hp ▸ hp') (by decide)⟩
  | client =>
    rw [Function.update_self, requested_client, hnone]
    exact ⟨fun hp => Pc.noConfusion hp, fun hp => Pc.noConfusion hp,
      fun hp => Pc.noConfusion hp, fun _ => Or.inl rfl, fun _ _ => rfl⟩

/-- Every step keeps what each side says of its own event. -/
theorem Order.step_side (h : Order host s) {a : Step} (hs : s.step host a = some s') :
    ∀ y, Local y (s'.cb y) (s'.event y) := by
  cases a <;> simp only [step, Option.ite_none_right_eq_some, Option.some.injEq,
    Option.map_eq_some_iff] at hs
  case bind x =>
    obtain ⟨hc, rfl⟩ := hs
    obtain ⟨hnone, hstate⟩ := (h.side x).start hc
    cases x with
    | server =>
      -- `rdma_listen` brings no event
      refine h.local_update ⟨fun hp => Pc.noConfusion hp, fun _ hb => absurd hb hstate,
        fun hp => Pc.noConfusion hp, fun hp => Bool.noConfusion hp, fun hp => Bool.noConfusion hp⟩
    | client =>
      -- `rdma_resolve_addr` brings `ADDR_RESOLVED`, which is not what `bind` waits for
      refine h.local_update₂ ⟨fun hp => Pc.noConfusion hp, fun _ hb => absurd hb hstate,
        fun hp => Pc.noConfusion hp, fun hp => Bool.noConfusion hp, fun hp => Bool.noConfusion hp⟩
  case bound x =>
    obtain ⟨hc, rfl⟩ := hs
    apply h.local_update
    by_cases hb : (s.cb x).state = bindState x
    · have hnone := (h.side x).bind hc.1 hb
      rw [if_pos hb, hnone]
      refine ⟨fun _ => ⟨rfl, ?_⟩, fun _ _ => rfl, fun _ => ⟨rfl, ?_⟩, fun _ => Or.inl rfl,
        fun _ _ => rfl⟩
      · simp_all
      · simp only [hb]
        cases x <;> rfl
    · rw [if_neg hb]
      exact .failed rfl
  case setUp x =>
    obtain ⟨hc, rfl⟩ := hs
    cases x with
    | server => exact h.accept_side hc
    | client => exact h.ask_side hc
  case connected x =>
    obtain ⟨hc, rfl⟩ := hs
    apply h.local_update
    by_cases herr : (s.cb x).state = .error
    · rw [if_pos herr]
      exact .failed rfl
    · rw [if_neg herr]
      exact (h.side x).go (by rw [hc.1]; rfl) rfl id
  case sendInfo x =>
    obtain ⟨hc, rfl⟩ := hs
    exact h.local_update ((h.side x).go (by rw [hc]; rfl) rfl id)
  case readTable x =>
    obtain ⟨hc, rfl⟩ := hs
    exact h.local_update ((h.side x).go (by rw [hc.1]; rfl) rfl id)
  case complete x =>
    obtain ⟨hc, rfl⟩ := hs
    exact h.local_update ((h.side x).go (by rw [hc.1]; rfl) (by rw [hc.1]; rfl) id)
  case tableRead x =>
    obtain ⟨hc, rfl⟩ := hs
    exact h.local_update ((h.side x).go (by rw [hc.1]; rfl) rfl fun hst =>
      TestState.noConfusion hst)
  case event x =>
    obtain ⟨hc, ev, hev, rfl⟩ := hs
    have hside := h.side x
    rw [hev] at hside
    exact h.local_update₂ hside.event
  case recv x =>
    obtain ⟨hc, bs, hbs, rfl⟩ := hs
    exact h.local_update ((h.side x).go hc.1 hc.1 fun hst => TestState.noConfusion hst)
  case abort x =>
    obtain ⟨hc, rfl⟩ := hs
    exact h.local_update (.failed rfl)
  case noRoute x =>
    obtain ⟨⟨hd, hev⟩, rfl⟩ := hs
    have hside := h.side x
    rw [hev] at hside
    refine h.local_update₂ ⟨fun hp => absurd (hside.start hp).1 (by simp), fun _ _ => rfl,
      fun hp => absurd (hside.setup hp).1 (by simp), fun _ => Or.inl rfl, fun _ _ => rfl⟩
  case fail x =>
    obtain rfl := hs
    exact h.local_update (h.side x).error
  case cqError x =>
    obtain ⟨hc, rfl⟩ := hs
    exact h.local_update (h.side x).error
  case noSend x =>
    obtain ⟨hc, rfl⟩ := hs
    exact h.local_update ((h.side x).go (by rw [hc]; rfl) rfl id)
  case noRead x =>
    obtain ⟨hc, rfl⟩ := hs
    exact h.local_update ((h.side x).go (by rw [hc.1]; rfl) rfl id)

/-- Every step keeps it that a server nobody has asked waits. -/
theorem Order.step_unasked (h : Order host s) {a : Step} (hs : s.step host a = some s')
    (hearly : 5 ≤ (s'.cb .client).pc.left) : (s'.cb .server).pc = .start ∨
      (s'.cb .server).pc = .failed ∨ ((s'.cb .server).pc = .bind ∧ s'.event .server = none ∧
        (s'.cb .server).state ≠ .connectRequest) := by
  have halt := h.unasked (hearly.trans (left_le hs .client))
  by_cases hside : a.side = .client
  · -- a client that asks is not early any more
    obtain ⟨hcb, hevent⟩ := step_frame hs (y := .server) (by rw [hside]; decide)
    rw [hside] at hevent
    rw [hcb]
    rcases hevent with hevent | hpc
    · rw [hevent]
      exact halt
    · rw [hpc] at hearly
      exact absurd hearly (by decide)
  -- a server that has not been asked has started, waits or has ended
  have hpcs : ∀ {p : Pc}, (s.cb .server).pc = p → p = .start ∨ p = .bind ∨ p = .failed := by
    rintro p rfl
    rcases halt with hp | hp | ⟨hp, -⟩
    · exact Or.inl hp
    · exact Or.inr (Or.inr hp)
    · exact Or.inr (Or.inl hp)
  have hposted : (s.cb .server).pc.posted = false := by
    rcases halt with hp | hp | ⟨hp, -⟩ <;> rw [hp] <;> rfl
  -- and no event has come for it unless it has ended
  have hnone : (s.cb .server).pc = .failed ∨ s.event .server = none := by
    rcases halt with hp | hp | ⟨-, hnone, -⟩
    · exact Or.inr ((h.side .server).start hp).1
    · exact Or.inl hp
    · exact Or.inr hnone
  cases a <;> simp only [step, Option.ite_none_right_eq_some, Option.some.injEq,
    Option.map_eq_some_iff] at hs <;> rename_i x <;>
    obtain rfl : x = Side.server := Side.eq_other (x := .client) hside
  case bind =>
    obtain ⟨hc, rfl⟩ := hs
    obtain ⟨hnone, hstate⟩ := (h.side .server).start hc
    simp only [Function.update_self]
    exact Or.inr (Or.inr ⟨trivial, hnone, hstate⟩)
  case bound =>
    obtain ⟨⟨hc, -⟩, rfl⟩ := hs
    obtain hp | hp | ⟨-, -, hstate⟩ := halt
    · exact absurd (hc.symm.trans hp) (by decide)
    · exact absurd (hc.symm.trans hp) (by decide)
    · -- what ends the wait is an error
      simp only [Function.update_self]
      rw [if_neg (show (s.cb .server).state ≠ bindState .server from hstate)]
      exact Or.inr (Or.inl rfl)
  case event =>
    obtain ⟨-, ev, hev, rfl⟩ := hs
    rcases hnone with hp | hnone
    · simp only [Function.update_self]
      exact Or.inr (Or.inl hp)
    · exact absurd (hev.symm.trans hnone) (by simp)
  case noRoute =>
    obtain ⟨⟨-, hev⟩, rfl⟩ := hs
    rcases hnone with hp | hnone
    · simp only [Function.update_self]
      exact Or.inr (Or.inl hp)
    · exact absurd (hev.symm.trans hnone) (by simp)
  case abort =>
    obtain ⟨-, rfl⟩ := hs
    simp only [Function.update_self]
    exact Or.inr (Or.inl trivial)
  case fail =>
    obtain rfl := hs
    simp only [Function.update_self]
    exact halt.imp_right (Or.imp_right fun hb => ⟨hb.1, hb.2.1, TestState.noConfusion⟩)
  case recv | cqError =>
    exact absurd (hposted.symm.trans (by first | exact hs.1.1 | exact hs.1)) (by decide)
  case setUp | sendInfo | noSend =>
    exact absurd (hpcs hs.1) (by decide)
  case connected | readTable | complete | tableRead | noRead =>
    exact absurd (hpcs hs.1.1) (by decide)

/-- Every step keeps it that a client nobody has accepted waits. -/
theorem Order.step_unaccepted (h : Order host s) {a : Step} (hs : s.step host a = some s')
    (hearly : 5 ≤ (s'.cb .server).pc.left) (hposted : (s'.cb .client).pc.posted = true) :
    (s'.cb .client).pc = .connect ∧ s'.event .client = none ∧
      (s'.cb .client).state.late = false := by
  have hserver := hearly.trans (left_le hs .server)
  have halt := h.unaccepted hserver
  by_cases hside : a.side = .server
  · -- a server that accepts is not early any more
    obtain ⟨hcb, hevent⟩ := step_frame hs (y := .client) (by rw [hside]; decide)
    rw [hcb] at hposted ⊢
    rw [hside] at hevent
    rcases hevent with hevent | hpc
    · rw [hevent]
      exact halt hposted
    · rw [hpc] at hearly
      exact absurd hearly (by decide)
  -- a client that has posted its receives waits
  have hwaits : ∀ {p : Pc}, (s.cb .client).pc = p → p.posted = true → p = .connect :=
    fun hp hposted => hp.symm.trans (halt (by rw [hp]; exact hposted)).1
  cases a <;> simp only [step, Option.ite_none_right_eq_some, Option.some.injEq,
    Option.map_eq_some_iff] at hs <;> rename_i x <;>
    obtain rfl : x = Side.client := Side.eq_other hside
  case event =>
    obtain ⟨-, ev, hev, rfl⟩ := hs
    simp only [Function.update_self] at hev hposted ⊢
    rw [(halt hposted).2.1] at hev
    cases hev
  case recv =>
    obtain ⟨hc, bs, hbs, rfl⟩ := hs
    rcases h.infos .client with hnil | ⟨-, hleft⟩
    · rw [hnil] at hbs
      cases hbs
    · have := hserver.trans hleft
      omega
  case fail =>
    obtain rfl := hs
    simp only [Function.update_self] at hposted ⊢
    exact ⟨(halt hposted).1, (halt hposted).2.1, rfl⟩
  case cqError =>
    obtain ⟨-, rfl⟩ := hs
    simp only [Function.update_self] at hposted ⊢
    exact ⟨(halt hposted).1, (halt hposted).2.1, rfl⟩
  case noRoute =>
    obtain ⟨⟨-, hev⟩, rfl⟩ := hs
    simp only [Function.update_self] at hev hposted ⊢
    rw [(halt hposted).2.1] at hev
    cases hev
  case setUp =>
    obtain ⟨hc, rfl⟩ := hs
    obtain ⟨hnone, hlate⟩ := (h.side .client).setup hc
    simp only [Function.update_self, requested_client]
    exact ⟨trivial, hnone, hlate⟩
  case connected =>
    obtain ⟨⟨hpc, hval⟩, rfl⟩ := hs
    obtain ⟨-, -, hlate⟩ := halt (by rw [hpc]; rfl)
    have herr := (TestState.late_or_error hval).resolve_left fun hl =>
      Bool.noConfusion (hl.symm.trans hlate)
    simp only [Function.update_self, if_pos herr] at hposted
    cases hposted
  case bound =>
    obtain ⟨-, rfl⟩ := hs
    simp only [Function.update_self] at hposted
    split at hposted <;> cases hposted
  case sendInfo | noSend =>
    obtain ⟨hpc, rfl⟩ := hs
    exact absurd (hwaits hpc rfl) (by decide)
  case tableRead | complete =>
    obtain ⟨⟨hpc, -⟩, rfl⟩ := hs
    exact absurd (hwaits hpc rfl) (by decide)
  case readTable | noRead =>
    obtain ⟨⟨hpc, -⟩, rfl⟩ := hs
    exact absurd (hwaits hpc rfl) (by decide)
  case bind | abort =>
    obtain ⟨-, rfl⟩ := hs
    simp only [Function.update_self] at hposted
    cases hposted

/-- What is in flight to a side was in flight before the step, or the other side sends it now. -/
theorem infos_back {a : Step} (hs : s.step host a = some s') (y : Side) :
    s'.infos y = s.infos y ∨ (s'.infos y = (s.infos y).tail ∧ a = .recv y) ∨
      (s'.infos y = s.infos y ++ [bufferInfo (host y.other)] ∧ (s.cb y.other).pc = .test ∧
        (s'.cb y.other).pc = .info) := by
  cases a <;> simp only [step, Option.ite_none_right_eq_some, Option.some.injEq,
    Option.map_eq_some_iff] at hs
  case sendInfo x =>
    obtain ⟨hc, rfl⟩ := hs
    rcases eq_or_ne y x.other with rfl | hne
    · simp only [Function.update_self, Side.other_other]
      exact Or.inr (Or.inr ⟨trivial, hc, trivial⟩)
    · exact Or.inl (Function.update_of_ne hne _ _)
  case recv x =>
    obtain ⟨-, bs, -, rfl⟩ := hs
    rcases eq_or_ne y x with rfl | hne
    · exact Or.inr (Or.inl ⟨Function.update_self .., rfl⟩)
    · exact Or.inl (Function.update_of_ne hne _ _)
  case event x =>
    obtain ⟨-, ev, -, rfl⟩ := hs
    exact Or.inl rfl
  case fail x =>
    obtain rfl := hs
    exact Or.inl rfl
  all_goals
    obtain ⟨-, rfl⟩ := hs
    exact Or.inl rfl

theorem Order.step_infos (h : Order host s) {a : Step} (hs : s.step host a = some s') (y : Side) :
    s'.infos y = [] ∨
      (s'.infos y = [bufferInfo (host y.other)] ∧ (s'.cb y.other).pc.left ≤ 2) := by
  have hleft := left_le hs y.other
  rcases infos_back hs y with heq | ⟨heq, -⟩ | ⟨heq, htest, hinfo⟩ <;> rw [heq]
  · exact (h.infos y).imp_right fun hone => ⟨hone.1, hleft.trans hone.2⟩
  · -- there is one info at most to receive
    rcases h.infos y with hnil | ⟨hone, -⟩
    · exact Or.inl (by rw [hnil]; rfl)
    · exact Or.inl (by rw [hone]; rfl)
  · -- the other side has not sent one before
    rcases h.infos y with hnil | ⟨-, hsent⟩
    · rw [hnil, hinfo]
      exact Or.inr ⟨rfl, by decide⟩
    · rw [htest] at hsent
      exact absurd hsent (by decide)

/-- A side that has an info has had it before the step, or receives it now. -/
theorem recvInfo_back {a : Step} (hs : s.step host a = some s') {y : Side}
    (hstate : (s'.cb y).state = .recvInfo) :
    (s.cb y).state = .recvInfo ∨ (a = .recv y ∧ s.infos y ≠ []) := by
  by_cases hy : y = a.side
  swap
  · rw [(step_frame hs hy).1] at hstate
    exact Or.inl hstate
  subst hy
  cases a <;> simp only [step, Option.ite_none_right_eq_some, Option.some.injEq,
    Option.map_eq_some_iff] at hs <;> simp only [Step.side] at hstate ⊢
  case recv x =>
    obtain ⟨-, bs, hbs, -⟩ := hs
    exact Or.inr ⟨trivial, fun hnil => by rw [hnil] at hbs; cases hbs⟩
  case event x =>
    obtain ⟨-, ev, -, rfl⟩ := hs
    simp only [Function.update_self] at hstate
    exact absurd hstate ev.state_ne.1
  case noRoute x =>
    obtain ⟨-, rfl⟩ := hs
    simp only [Function.update_self] at hstate
    exact absurd hstate (CmEvent.state_ne .addrResolved).1
  case fail x =>
    obtain rfl := hs
    simp only [Function.update_self] at hstate
    cases hstate
  case cqError x =>
    obtain ⟨-, rfl⟩ := hs
    simp only [Function.update_self] at hstate
    cases hstate
  case tableRead x =>
    obtain ⟨-, rfl⟩ := hs
    simp only [Function.update_self] at hstate
    cases hstate
  all_goals
    obtain ⟨-, rfl⟩ := hs
    simp only [Function.update_self] at hstate
    exact Or.inl hstate

theorem Order.step_recvd (h : Order host s) {a : Step} (hs : s.step host a = some s') (y : Side)
    (hstate : (s'.cb y).state = .recvInfo) :
    s'.infos y = [] ∧ (s'.cb y.other).pc.left ≤ 2 := by
  have hleft := left_le hs y.other
  rcases recvInfo_back hs hstate with hold | ⟨rfl, hsome⟩
  · obtain ⟨hnil, hsent⟩ := h.recvd y hold
    refine ⟨?_, hleft.trans hsent⟩
    rcases infos_back hs y with heq | ⟨heq, -⟩ | ⟨-, htest, -⟩
    · rw [heq, hnil]
    · rw [heq, hnil]
      rfl
    · -- an info that has been received was sent already
      rw [htest] at hsent
      exact absurd hsent (by decide)
  · obtain ⟨hone, hsent⟩ := (h.infos y).resolve_left hsome
    refine ⟨?_, hleft.trans hsent⟩
    rcases infos_back hs y with heq | ⟨heq, -⟩ | ⟨-, htest, -⟩
    · -- receiving takes the info out
      simp only [step, Option.ite_none_right_eq_some, Option.map_eq_some_iff] at hs
      obtain ⟨-, bs, -, rfl⟩ := hs
      simp only [Function.update_self, hone, List.tail_cons]
    · rw [heq, hone]
      rfl
    · rw [htest] at hsent
      exact absurd hsent (by decide)

theorem Order.init : Order host init where
  side x := ⟨fun _ => ⟨rfl, by cases x <;> decide⟩, fun _ _ => rfl, fun _ => ⟨rfl, rfl⟩,
    fun _ => Or.inl rfl, fun _ _ => rfl⟩
  unasked _ := Or.inl rfl
  unaccepted _ h := absurd h (by decide)
  infos _ := Or.inl rfl
  recvd _ h := TestState.noConfusion h

theorem Order.step (h : Order host s) {a : Step} (hs : s.step host a = some s') : Order host s' :=
  ⟨h.step_side hs, h.step_unasked hs, h.step_unaccepted hs, h.step_infos hs, h.step_recvd hs⟩

end Order

/-! ### A side that is ready knows the other -/

section Knows

variable {host : Side → Host} {s s' : Handshake}

/-- What a side knows of the other's host; until the info is there an error keeps it from
going on. -/
structure Knows (h : Host) (e : Endpoint) (c : Option CmEvent) (down : Bool) : Prop where
  recvd : e.state = .recvInfo ∨ e.state = .rdmaReady → e.remote = told h
  past : e.pc = .test ∨ e.pc = .info → e.remote = told h ∨ c = none
  table : e.pc = .table → e.remote = told h ∨
    (e.state = .error ∧ e.semRead = 0 ∧ (c = none ∨ down = true))
  read : e.pc = .ready ∨ 0 < e.semRead → e.remote = told h ∧ e.remoteAddr = h.dmapages
  sem : e.semRead ≤ 1 ∧ (e.pc ≠ .table → e.semRead = 0)

/-- The events of a side that is past its request are not changed by the other. -/
theorem Order.event_setUp (h : Order host s) {x y : Side} (hc : (s.cb x).pc = .setup)
    (hy : (s.cb y).pc = .test ∨ (s.cb y).pc = .info ∨ (s.cb y).pc = .table) :
    s.requested x y = s.event y := by
  cases x with
  | server =>
    cases y with
    | server => rw [hc] at hy; simp at hy
    | client =>
      have hposted : (s.cb .client).pc.posted = true := by
        rcases hy with hp | hp | hp <;> rw [hp] <;> rfl
      obtain ⟨hp, -⟩ := h.unaccepted (by rw [hc]; decide) hposted
      rw [hp] at hy
      simp at hy
  | client =>
    cases y with
    | server =>
      rcases h.unasked (by rw [hc]; decide) with hp | hp | ⟨hp, -⟩ <;> rw [hp] at hy <;>
        simp at hy
    | client => exact requested_client s

section Fields

variable {h : Host} {e : Endpoint} {c c' : Option CmEvent} {d d' : Bool}

/-- A thread moves where nothing of the other is needed. -/
theorem Knows.leave (hk : Knows h e c d) {p : Pc} (htable : e.pc ≠ .table)
    (hp : p = .bind ∨ p = .setup ∨ p = .connect ∨ p = .failed ∨ p = .unread) (c' : Option CmEvent)
    (d' : Bool) : Knows h { e with pc := p } c' d' := by
  have hsem : e.semRead = 0 := hk.sem.2 htable
  have hne : ∀ {q : Pc}, p = q →
      q = .bind ∨ q = .setup ∨ q = .connect ∨ q = .failed ∨ q = .unread := fun hq => hq ▸ hp
  exact
    { recvd := hk.recvd
      past := fun hq => by rcases hq with hq | hq <;> exact absurd (hne hq) (by decide)
      table := fun hq => absurd (hne hq) (by decide)
      read := by
        intro hq
        rcases hq with hq | hpos
        · exact absurd (hne hq) (by decide)
        · exact absurd hpos (by simp only [hsem]; decide)
      sem := ⟨hk.sem.1, fun _ => hsem⟩ }

/-- Only `state` and what is to come of the connection manager change. -/
theorem Knows.setState (hk : Knows h e c d) {st : TestState}
    (hrecvd : st = .recvInfo ∨ st = .rdmaReady → e.remote = told h)
    (hpast : e.pc = .test ∨ e.pc = .info → e.remote = told h ∨ c' = none)
    (htable : e.pc = .table → e.remote = told h ∨
      (st = .error ∧ e.semRead = 0 ∧ (c' = none ∨ d' = true))) :
    Knows h { e with state := st } c' d' :=
  ⟨hrecvd, hpast, htable, hk.read, hk.sem⟩

/-- An error is reported. -/
theorem Knows.error (hk : Knows h e c d) (hd : d = true → d' = true) :
    Knows h { e with state := .error } c d' := by
  refine hk.setState (fun hst => ?_) hk.past fun hp => ?_
  · rcases hst with hst | hst <;> cases hst
  · exact (hk.table hp).imp_right fun hlost => ⟨rfl, hlost.2.1, hlost.2.2.imp_right hd⟩

/-- An event comes: an error that keeps the thread from reading has let none through. -/
theorem Knows.event (hk : Knows h e c d) {ev : CmEvent} (hc : c = some ev) (hd : d = false)
    (hpast : e.pc = .test ∨ e.pc = .info → c' = none) :
    Knows h (e.cmaEvent ev) c' d' := by
  refine hk.setState (fun hst => ?_) (fun hp => Or.inr (hpast hp)) fun hp => Or.inl ?_
  · rcases hst with hst | hst
    · exact absurd hst ev.state_ne.1
    · exact absurd hst ev.state_ne.2.1
  · apply (hk.table hp).resolve_right
    intro hlost
    rcases hlost.2.2 with hnone | hdown
    · exact absurd (hc.symm.trans hnone) (by simp)
    · exact absurd (hd.symm.trans hdown) (by decide)

/-- The info is read: the other side is known from here on. -/
theorem Knows.recv (hk : Knows h e c d) : Knows h (e.recvInfo (bufferInfo h)) c d := by
  rw [recvInfo_bufferInfo]
  exact
    { recvd := fun _ => rfl
      past := fun _ => Or.inl rfl
      table := fun _ => Or.inl rfl
      read := fun hp => ⟨rfl, (hk.read hp).2⟩
      sem := hk.sem }

/-- A thread that is connected has no event to come, or has the info already. -/
theorem Knows.connected (hk : Knows h e c d) (hpc : e.pc = .connect) (hlate : e.state.late = true)
    (hnone : e.state = .connected → c = none) : Knows h { e with pc := .test } c d := by
  have hsem : e.semRead = 0 := hk.sem.2 (by rw [hpc]; decide)
  refine ⟨hk.recvd, fun _ => ?_, fun hp => Pc.noConfusion hp, fun hp => ?_, hk.sem.1, fun _ => hsem⟩
  · cases hst : e.state <;> rw [hst] at hlate <;> try cases hlate
    · exact Or.inr (hnone hst)
    · exact Or.inl (hk.recvd (Or.inl hst))
    · exact Or.inl (hk.recvd (Or.inr hst))
  · rcases hp with hp | hpos
    · cases hp
    · exact absurd hpos (by simp only [hsem]; decide)

/-- A thread that has posted its info waits. -/
theorem Knows.posted (hk : Knows h e c d) (hpc : e.pc = .test) :
    Knows h { e with pc := .info } c d := by
  have hsem : e.semRead = 0 := hk.sem.2 (by rw [hpc]; decide)
  refine ⟨hk.recvd, fun _ => hk.past (Or.inl hpc), fun hp => Pc.noConfusion hp, fun hp => ?_,
    hk.sem.1, fun _ => hsem⟩
  rcases hp with hp | hpos
  · cases hp
  · exact absurd hpos (by simp only [hsem]; decide)

/-- A thread that has stopped waiting has the info, or an error has ended its wait. -/
theorem Knows.waited (hk : Knows h e c d) (hpc : e.pc = .info)
    (hval : TestState.recvInfo.val ≤ e.state.val) : Knows h { e with pc := .table } c d := by
  have hsem : e.semRead = 0 := hk.sem.2 (by rw [hpc]; decide)
  refine ⟨hk.recvd, fun hp => ?_, fun _ => ?_, fun hp => ?_, hk.sem.1, fun hp => absurd rfl hp⟩
  · rcases hp with hp | hp <;> cases hp
  · rcases TestState.of_recvInfo_le hval with hst | hst | hst
    · exact Or.inl (hk.recvd (Or.inl hst))
    · exact Or.inl (hk.recvd (Or.inr hst))
    · exact (hk.past (Or.inr hpc)).imp_right fun hnone => ⟨hst, hsem, Or.inl hnone⟩
  · rcases hp with hp | hpos
    · cases hp
    · exact absurd hpos (by simp only [hsem]; decide)

/-- The read of the table completes where the other side is known. -/
theorem Knows.complete (hk : Knows h e c d) (hpc : e.pc = .table) (herr : e.state ≠ .error) :
    Knows h { e with
      remoteAddr := h.words e.remote.dmabufPtr e.remote.pcount
      semRead := 1 } c d := by
  have hremote : e.remote = told h := (hk.table hpc).resolve_right fun hlost => herr hlost.1
  refine ⟨hk.recvd, hk.past, fun _ => Or.inl hremote, fun _ => ⟨hremote, ?_⟩, Nat.le_refl 1,
    fun hp => absurd hpc hp⟩
  simp only [hremote]
  rfl

/-- A thread that gets `sem_read` has the table. -/
theorem Knows.tableRead (hk : Knows h e c d) (hpos : 0 < e.semRead) :
    Knows h { e with semRead := e.semRead - 1, state := .rdmaReady, pc := .ready } c d := by
  obtain ⟨hremote, haddr⟩ := hk.read (Or.inr hpos)
  have hone := hk.sem.1
  refine ⟨fun _ => hremote, fun hp => ?_, fun hp => Pc.noConfusion hp, fun _ => ⟨hremote, haddr⟩,
    ?_, fun _ => ?_⟩
  · rcases hp with hp | hp <;> cases hp
  · show e.semRead - 1 ≤ 1
    omega
  · show e.semRead - 1 = 0
    omega

end Fields

/-- **Every step keeps what the sides know.**  One lemma above says what it is for the side that
takes the step; the other side notices only that it is asked or accepted. -/
theorem Knows.step (ho : Order host s)
    (h : ∀ y, Knows (host y.other) (s.cb y) (s.event y) (s.down y)) {a : Step}
    (hs : s.step host a = some s') :
    ∀ y, Knows (host y.other) (s'.cb y) (s'.event y) (s'.down y) := by
  have key : ∀ {x : Side} {e : Endpoint}, Knows (host x.other) e (s.event x) (s.down x) →
      ∀ y, Knows (host y.other) (Function.update s.cb x e y) (s.event y) (s.down y) :=
    fun {x e} hx =>
      forall_update (P := fun y e => Knows (host y.other) e (s.event y) (s.down y)) h hx
  cases a <;> simp only [Handshake.step, Option.ite_none_right_eq_some, Option.some.injEq,
    Option.map_eq_some_iff] at hs
  case bind x =>
    obtain ⟨hc, rfl⟩ := hs
    intro y
    dsimp only
    rcases eq_or_ne y x with rfl | hne
    · rw [Function.update_self]
      exact (h y).leave (by rw [hc]; decide) (Or.inl rfl) _ _
    · rw [Function.update_of_ne hne]
      split
      · rw [Function.update_of_ne hne]
        exact h y
      · exact h y
  case bound x =>
    obtain ⟨hc, rfl⟩ := hs
    refine key ((h x).leave (by rw [hc.1]; decide) ?_ _ _)
    split <;> decide
  case setUp x =>
    obtain ⟨hc, rfl⟩ := hs
    intro y
    dsimp only
    rcases eq_or_ne y x with rfl | hne
    · rw [Function.update_self]
      exact (h y).leave (by rw [hc]; decide) (by decide) _ _
    · -- the other side's event changes only before it is past its own request
      rw [Function.update_of_ne hne]
      have hevent := @Order.event_setUp host s ho x y hc
      refine ⟨(h y).recvd, fun hp => ?_, fun hp => ?_, (h y).read, (h y).sem⟩
      · rw [show s.requested x y = s.event y from hevent (hp.imp_right Or.inl)]
        exact (h y).past hp
      · rw [show s.requested x y = s.event y from hevent (Or.inr (Or.inr hp))]
        exact (h y).table hp
  case connected x =>
    obtain ⟨hc, rfl⟩ := hs
    apply key
    split
    · exact (h x).leave (by rw [hc.1]; decide) (by decide) _ _
    · next herr =>
      exact (h x).connected hc.1 ((TestState.late_or_error hc.2).resolve_right herr)
        ((ho.side x).connected (by rw [hc.1]; rfl))
  case sendInfo x =>
    obtain ⟨hc, rfl⟩ := hs
    exact key ((h x).posted hc)
  case readTable x =>
    obtain ⟨hc, rfl⟩ := hs
    exact key ((h x).waited hc.1 hc.2)
  case complete x =>
    obtain ⟨⟨hpc, -, herr, -⟩, rfl⟩ := hs
    exact key ((h x).complete hpc herr)
  case tableRead x =>
    obtain ⟨hc, rfl⟩ := hs
    exact key ((h x).tableRead hc.2)
  case event x =>
    obtain ⟨hd, ev, hev, rfl⟩ := hs
    intro y
    dsimp only
    rcases eq_or_ne y x with rfl | hne
    · rw [Function.update_self, Function.update_self]
      apply (h y).event hev hd
      intro hp
      -- past its request only `ESTABLISHED` comes
      have hposted := (ho.side y).posted (by rcases hp with hp | hp <;> rw [hp] <;> rfl)
      rw [hev] at hposted
      rw [Option.some.inj (hposted.resolve_left (by simp))]
      rfl
    · rw [Function.update_of_ne hne, Function.update_of_ne hne]
      exact h y
  case recv x =>
    obtain ⟨hc, bs, hbs, rfl⟩ := hs
    have hinfo : bs = bufferInfo (host x.other) := by
      rcases ho.infos x with hnil | ⟨hone, -⟩
      · rw [hnil] at hbs
        cases hbs
      · rw [hone] at hbs
        exact (Option.some.inj hbs).symm
    rw [hinfo]
    exact key (h x).recv
  case abort x =>
    obtain ⟨hc, rfl⟩ := hs
    refine key ((h x).leave ?_ (by decide) _ _)
    rcases hc with hc | hc <;> rw [hc] <;> decide
  case noRoute x =>
    obtain ⟨⟨hd, hev⟩, rfl⟩ := hs
    intro y
    dsimp only
    rcases eq_or_ne y x with rfl | hne
    · rw [Function.update_self, Function.update_self]
      exact (h y).event hev hd fun _ => rfl
    · rw [Function.update_of_ne hne, Function.update_of_ne hne]
      exact h y
  case fail x =>
    obtain rfl := hs
    intro y
    dsimp only
    rcases eq_or_ne y x with rfl | hne
    · rw [Function.update_self, Function.update_self]
      exact (h y).error fun _ => rfl
    · rw [Function.update_of_ne hne, Function.update_of_ne hne]
      exact h y
  case cqError x =>
    obtain ⟨hc, rfl⟩ := hs
    exact key ((h x).error id)
  case noSend x =>
    obtain ⟨hc, rfl⟩ := hs
    exact key ((h x).posted hc)
  case noRead x =>
    obtain ⟨hc, rfl⟩ := hs
    exact key ((h x).leave (by rw [hc.1]; decide) (by decide) _ _)

theorem reach_order (h : Reach host s) : Order host s :=
  h.invariant (I := Order host) (fun _ h0 => h0 ▸ Order.init) fun _ _ _ _ hinv _ hs =>
    hinv.step hs

theorem reach_knows (h : Reach host s) (x : Side) :
    Knows (host x.other) (s.cb x) (s.event x) (s.down x) := by
  refine h.invariant (I := fun s => ∀ x, Knows (host x.other) (s.cb x) (s.event x) (s.down x))
    (fun s h0 x => ?_) (fun _ _ _ hr hinv _ hs => Knows.step (reach_order hr) hinv hs) x
  rw [show s = init from h0]
  refine ⟨fun hs => ?_, fun hp => ?_, fun hp => Pc.noConfusion hp, fun hp => ?_, Nat.zero_le 1,
    fun _ => rfl⟩
  · rcases hs with hs | hs <;> cases hs
  · rcases hp with hp | hp <;> cases hp
  · rcases hp with hp | hp <;> cases hp

/-- Node 1 listens for node 2. -/
def twoHosts : Side → Host
  | .server => ⟨1, 2, 5, 4096, fun a => a, by decide, by decide, by decide, by decide⟩
  | .client => ⟨2, 1, 7, 8192, fun a => a + 1, by decide, by decide, by decide, by decide⟩

end Knows

end Handshake

end Comex
