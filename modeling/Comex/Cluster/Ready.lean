import Comex.Cluster.Handshake
import Comex.Lib.Eventually

/-!
# When a connection gets ready

`ESTABLISHED` sets `state` to `CONNECTED` also when the peer's buffer info has set it to
`RECV_INFO` before.  If the thread has not yet seen `RECV_INFO` it waits forever; if it has,
or if `ESTABLISHED` comes first, and nothing fails, both sides come to `RDMA_READY`.
`send_buffer_info` sleeps five seconds first, which keeps the info back without excluding
that it comes too early.

## Main definitions

* `Timely`, `Smooth` — the steps after which both sides still get ready.
* `Alive` — what is still to come for a side.

## Main results

* `eventually_ready` — **if every step is smooth both sides come to `RDMA_READY`, in any order
  of steps.**
* `never_ready` — **after an event that is not timely its side never does.**
-/

namespace Comex
namespace Handshake

/-- The thread has asked for the connection and has not used the peer's info. -/
def Pc.waits : Pc → Bool
  | .connect | .test | .info => true
  | _ => false

/-- `ESTABLISHED` does not overwrite a `RECV_INFO` that the thread still waits for. -/
def Timely (s : Handshake) (x : Side) : Prop :=
  ¬ (s.event x = some .established ∧ (s.cb x).state = .recvInfo ∧ (s.cb x).pc.waits = true)

instance (s : Handshake) (x : Side) : Decidable (s.Timely x) := inferInstanceAs (Decidable (¬ _))

/-- Nothing fails, the server listens when the client asks, and `ESTABLISHED` is timely.  A
request to a server that does not listen yet counts as a failure: the connection manager
refuses it. -/
def Smooth (s : Handshake) : Step → Prop
  | .event x => s.Timely x
  | .setUp x => x = .client → (s.cb .server).pc ≠ .start
  | .abort _ | .noRoute _ | .fail _ | .cqError _ | .noSend _ | .noRead _ => False
  | _ => True

theorem TestState.val_inj {t u : TestState} (h : t.val = u.val) : t = u := by
  cases t <;> cases u <;> first | rfl | exact absurd h (by decide)

theorem Pc.left_le_of_posted {p : Pc} (h : p.posted = true) : p.left ≤ 4 := by
  cases p <;> first | exact absurd h (by decide) | decide

theorem Pc.posted_of_waits {p : Pc} (h : p.waits = true) : p.posted = true := by
  cases p <;> first | exact absurd h (by decide) | rfl

/-! ### What is still to come -/

section Alive

variable {host : Side → Host} {s s' : Handshake} {x : Side}

/-- What is still to come for a side, with the other at `pc`. -/
structure Alive (x : Side) (e : Endpoint) (c : Option CmEvent) (infos : List (List UInt8))
    (pc : Pc) : Prop where
  ok : e.state ≠ .error ∧ e.pc ≠ .failed ∧ e.pc ≠ .unread
  early : 5 ≤ e.pc.left → e.state.val ≤ (bindState x).val
  /-- The server listens before the client asks. -/
  listens : x = .server → e.pc = .start → 5 ≤ pc.left
  resolved : x = .client → e.pc = .bind → c = some .addrResolved ∨ c = some .routeResolved ∨
    (c = none ∧ e.state = .routeResolved)
  asked : x = .server → e.pc = .bind → (c = none ∨ c = some .connectRequest) ∧
    (pc.left ≤ 4 → c = some .connectRequest ∨ e.state = .connectRequest)
  accepted : e.pc.posted = true → x = .server ∨ pc.left ≤ 4 →
    c = some .established ∨ e.state.late = true
  recvd : e.pc.waits = true → pc.left ≤ 2 → infos = [] → e.state = .recvInfo

/-- A side that has posted its receives has only `ESTABLISHED` and the info to come. -/
theorem Alive.of_posted {e : Endpoint} {c : Option CmEvent} {infos : List (List UInt8)} {pc : Pc}
    (hp : e.pc.posted = true) (herr : e.state ≠ .error) (hunread : e.pc ≠ .unread)
    (haccepted : x = .server ∨ pc.left ≤ 4 → c = some .established ∨ e.state.late = true)
    (hrecvd : e.pc.waits = true → pc.left ≤ 2 → infos = [] → e.state = .recvInfo) :
    Alive x e c infos pc := by
  have hnot : ∀ {p : Pc}, p.posted = false → e.pc ≠ p := by
    intro p hp' hpc
    rw [hpc, hp'] at hp
    cases hp
  have hleft := Pc.left_le_of_posted hp
  exact
    { ok := ⟨herr, hnot rfl, hunread⟩
      early := fun hl => absurd hl (by omega)
      listens := fun _ hpc => absurd hpc (hnot rfl)
      resolved := fun _ hpc => absurd hpc (hnot rfl)
      asked := fun _ hpc => absurd hpc (hnot rfl)
      accepted := fun _ => haccepted
      recvd := hrecvd }

/-- Both sides, with no error reported. -/
structure Fine (s : Handshake) : Prop where
  up : ∀ x, s.down x = false
  side : ∀ x, Alive x (s.cb x) (s.event x) (s.infos x) (s.cb x.other).pc

/-- A step of one side that neither asks, accepts nor sends: the other side cannot tell the
places it goes through apart. -/
theorem Fine.update (h : Fine s) {e : Endpoint} {c : Option CmEvent} {i : List (List UInt8)}
    {event : Side → Option CmEvent} {infos : Side → List (List UInt8)}
    (hevent : event = Function.update s.event x c) (hinfos : infos = Function.update s.infos x i)
    (h4 : e.pc.left ≤ 4 ↔ (s.cb x).pc.left ≤ 4) (h2 : e.pc.left ≤ 2 ↔ (s.cb x).pc.left ≤ 2)
    (hx : Alive x e c i (s.cb x.other).pc) :
    Fine { s with cb := Function.update s.cb x e, event := event, infos := infos } := by
  subst hevent hinfos
  refine ⟨h.up, fun y => ?_⟩
  by_cases hy : y = x
  · subst hy
    simp only [Function.update_self, update_other]
    exact hx
  · obtain rfl := Side.eq_other hy
    obtain ⟨hok, hearly, hlistens, hresolved, hasked, haccepted, hrecvd⟩ := h.side x.other
    simp only [Side.other_other] at *
    simp only [Function.update_self, update_other]
    refine ⟨hok, hearly, fun hs hp => ?_, hresolved, fun hs hp => ?_, fun hp hs => ?_,
      fun hp hl => ?_⟩
    · have := hlistens hs hp
      omega
    · exact ⟨(hasked hs hp).1, fun hl => (hasked hs hp).2 (h4.mp hl)⟩
    · exact haccepted hp (hs.imp_right h4.mp)
    · exact hrecvd hp (h2.mp hl)

/-- Until the server accepts, the client waits for it. -/
theorem Fine.client_connect (ho : Order host s) (h : Fine s) (hc : (s.cb .server).pc = .setup) :
    (s.cb .client).pc = .connect := by
  have hasked : (s.cb .client).pc.left ≤ 4 := by
    by_contra hleft
    rcases ho.unasked (by omega) with hp | hp | ⟨hp, -⟩ <;> rw [hc] at hp <;> cases hp
  apply (ho.unaccepted (by rw [hc]; decide) _).1
  obtain ⟨-, hfailed, -⟩ := (h.side .client).ok
  cases hp : (s.cb .client).pc <;> rw [hp] at hasked <;>
    first | rfl | exact absurd hasked (by decide) | exact absurd hp hfailed

/-- Until the client asks, the server waits for it. -/
theorem Fine.server_bind (ho : Order host s) (h : Fine s) (hc : (s.cb .client).pc = .setup)
    (hlistens : (s.cb .server).pc ≠ .start) : (s.cb .server).pc = .bind := by
  rcases ho.unasked (by rw [hc]; decide) with hp | hp | ⟨hp, -⟩
  · exact absurd hp hlistens
  · exact absurd hp (h.side .server).ok.2.1
  · exact hp

/-- The server accepts, and both sides have an `ESTABLISHED` to come. -/
theorem Fine.accept (ho : Order host s) (h : Fine s) (hc : (s.cb .server).pc = .setup) :
    Fine { s with
      cb := Function.update s.cb .server { s.cb .server with pc := .connect }
      event := fun _ => some .established } := by
  have hclient := h.client_connect ho hc
  refine ⟨h.up, fun y => ?_⟩
  cases y with
  | server =>
    simp only [Function.update_self, update_other]
    refine .of_posted rfl (h.side .server).ok.1 Pc.noConfusion (fun _ => Or.inl rfl) fun _ hl => ?_
    rw [show (s.cb Side.server.other).pc = .connect from hclient] at hl
    exact absurd hl (by decide)
  | client =>
    have hother : Function.update s.cb .server { s.cb .server with pc := .connect }
        Side.client.other = { s.cb .server with pc := .connect } := Function.update_self ..
    simp only [hother, ne_eq, reduceCtorEq, not_false_eq_true, Function.update_of_ne]
    exact .of_posted (by rw [hclient]; rfl) (h.side .client).ok.1 (h.side .client).ok.2.2
      (fun _ => Or.inl rfl) fun _ hl => absurd hl (by decide)

/-- The client asks a server that listens: the server has the request to come, and the client
nothing until it is accepted. -/
theorem Fine.ask (ho : Order host s) (h : Fine s) (hc : (s.cb .client).pc = .setup)
    (hlistens : (s.cb .server).pc ≠ .start) :
    Fine { s with
      cb := Function.update s.cb .client { s.cb .client with pc := .connect }
      event := Function.update s.event .server (some .connectRequest) } := by
  have hserver := h.server_bind ho hc hlistens
  have hserver' : (s.cb Side.client.other).pc = .bind := hserver
  refine ⟨h.up, fun y => ?_⟩
  cases y with
  | server =>
    have hother : Function.update s.cb .client { s.cb .client with pc := .connect }
        Side.server.other = { s.cb .client with pc := .connect } := Function.update_self ..
    simp only [hother, Function.update_self, ne_eq, reduceCtorEq, not_false_eq_true,
      Function.update_of_ne]
    exact
      { ok := (h.side .server).ok
        early := (h.side .server).early
        listens := fun _ hp => absurd hp hlistens
        resolved := fun hx => Side.noConfusion hx
        asked := fun _ _ => ⟨Or.inr rfl, fun _ => Or.inl rfl⟩
        accepted := fun hp => by rw [hserver] at hp; cases hp
        recvd := fun hp => by rw [hserver] at hp; cases hp }
  | client =>
    simp only [Function.update_self, update_other]
    refine .of_posted rfl (h.side .client).ok.1 Pc.noConfusion (fun hx => ?_) fun _ hl => ?_
    · rw [hserver'] at hx
      exact absurd hx (by decide)
    · rw [hserver'] at hl
      exact absurd hl (by decide)

/-- An info is sent: the other side may be ready without another one. -/
theorem Fine.send (h : Fine s) (hc : (s.cb x).pc = .test) (bs : List UInt8) :
    Fine { s with
      cb := Function.update s.cb x { s.cb x with pc := .info }
      infos := Function.update s.infos x.other (s.infos x.other ++ [bs]) } := by
  refine ⟨h.up, fun y => ?_⟩
  by_cases hy : y = x
  · subst hy
    simp only [Function.update_self, update_other, Function.update_of_ne (Side.ne_other y) _ _]
    exact .of_posted rfl (h.side y).ok.1 Pc.noConfusion ((h.side y).accepted (by rw [hc]; rfl))
      fun _ => (h.side y).recvd (by rw [hc]; rfl)
  · obtain rfl := Side.eq_other hy
    obtain ⟨hok, hearly, hlistens, hresolved, hasked, haccepted, -⟩ := h.side x.other
    simp only [Side.other_other] at *
    simp only [Function.update_self, update_other]
    have hne : s.infos x.other ++ [bs] ≠ [] := by simp
    have htest : Pc.test.left = 3 := rfl
    rw [hc, htest] at hlistens hasked haccepted
    refine ⟨hok, hearly, fun hs hp => ?_, hresolved, fun hs hp => ?_, fun hp _ => ?_,
      fun _ _ hi => ?_⟩
    · exact absurd (hlistens hs hp) (by decide)
    · exact ⟨(hasked hs hp).1, fun _ => (hasked hs hp).2 (by decide)⟩
    · exact haccepted hp (Or.inr (by decide))
    · exact absurd hi hne

/-- A side begins: the server listens and waits to be asked, the client has its address to be
resolved. -/
theorem Fine.bind (ho : Order host s) (h : Fine s) (hc : (s.cb x).pc = .start) :
    Fine { s with
      cb := Function.update s.cb x { s.cb x with pc := .bind }
      event :=
        if x = .client then Function.update s.event x (some .addrResolved) else s.event } := by
  obtain ⟨hnone, -⟩ := (ho.side x).start hc
  have hold := h.side x
  have hearly : (s.cb x).state.val ≤ (bindState x).val := hold.early (by rw [hc]; decide)
  have h4 : Pc.bind.left ≤ 4 ↔ (s.cb x).pc.left ≤ 4 := by rw [hc]; decide
  have h2 : Pc.bind.left ≤ 2 ↔ (s.cb x).pc.left ≤ 2 := by rw [hc]; decide
  cases x with
  | server =>
    -- a server begins before the client has asked
    have hlistens := hold.listens rfl hc
    exact h.update (Function.update_eq_self _ _).symm (Function.update_eq_self _ _).symm h4 h2
      { ok := ⟨hold.ok.1, Pc.noConfusion, Pc.noConfusion⟩
        early := fun _ => hearly
        listens := fun _ hp => Pc.noConfusion hp
        resolved := fun hx => Side.noConfusion hx
        asked := fun _ _ => ⟨Or.inl hnone, fun hl => absurd hlistens (by omega)⟩
        accepted := fun hp => Bool.noConfusion hp
        recvd := fun hp => Bool.noConfusion hp }
  | client =>
    exact h.update rfl (Function.update_eq_self _ _).symm h4 h2
      { ok := ⟨hold.ok.1, Pc.noConfusion, Pc.noConfusion⟩
        early := fun _ => hearly
        listens := fun hx => Side.noConfusion hx
        resolved := fun _ _ => Or.inl rfl
        asked := fun hx => Side.noConfusion hx
        accepted := fun hp => Bool.noConfusion hp
        recvd := fun hp => Bool.noConfusion hp }

/-- The wait of `krping_bind_server` or `krping_bind_client` is over. -/
theorem Fine.bound (h : Fine s) (hc : (s.cb x).pc = .bind)
    (hval : (bindState x).val ≤ (s.cb x).state.val) :
    Fine { s with
      cb := Function.update s.cb x { s.cb x with
        pc := if (s.cb x).state = bindState x then .setup else .failed } } := by
  obtain ⟨h1, h2, h3, h4, h5, h6, h7⟩ := h.side x
  have hstate : (s.cb x).state = bindState x :=
    TestState.val_inj (Nat.le_antisymm (h2 (by rw [hc]; decide)) hval)
  simp only [if_pos hstate]
  refine h.update (Function.update_eq_self _ _).symm (Function.update_eq_self _ _).symm
    (by simp [hc, Pc.left]) (by simp [hc, Pc.left])
    ⟨⟨h1.1, Pc.noConfusion, Pc.noConfusion⟩, fun _ => Nat.le_of_eq (by rw [hstate]), ?_, ?_, ?_,
      fun hp => Bool.noConfusion hp, fun hp => Bool.noConfusion hp⟩
  · exact fun _ hp => Pc.noConfusion hp
  · exact fun _ hp => Pc.noConfusion hp
  · exact fun _ hp => Pc.noConfusion hp

/-- A thread that has posted its receives goes on. -/
theorem Fine.go (h : Fine s) {e : Endpoint} (hp : (s.cb x).pc.posted = true)
    (hp' : e.pc.posted = true) (herr : e.state ≠ .error) (hunread : e.pc ≠ .unread)
    (h2 : e.pc.left ≤ 2 ↔ (s.cb x).pc.left ≤ 2)
    (hlate : (s.cb x).state.late = true → e.state.late = true)
    (hwaits : e.pc.waits = true → (s.cb x).pc.waits = true ∧ e.state = (s.cb x).state) :
    Fine { s with cb := Function.update s.cb x e } := by
  have hside := h.side x
  have hleft := Pc.left_le_of_posted hp'
  refine h.update (Function.update_eq_self _ _).symm (Function.update_eq_self _ _).symm
    ⟨fun _ => Pc.left_le_of_posted hp, fun _ => hleft⟩ h2
    (.of_posted hp' herr hunread (fun hs => (hside.accepted hp hs).imp_right hlate)
      fun hw hl hi => ?_)
  obtain ⟨hw', hstate⟩ := hwaits hw
  rw [hstate]
  exact hside.recvd hw' hl hi

/-- The peer's info comes. -/
theorem Fine.recv (h : Fine s) (hc : (s.cb x).pc.posted = true) (bs : List UInt8) :
    Fine { s with
      cb := Function.update s.cb x ((s.cb x).recvInfo bs)
      infos := Function.update s.infos x (s.infos x).tail } := by
  refine h.update (Function.update_eq_self _ _).symm rfl Iff.rfl Iff.rfl ?_
  exact .of_posted hc TestState.noConfusion (h.side x).ok.2.2 (fun _ => Or.inr rfl) fun _ _ _ => rfl

/-- An event comes in time. -/
theorem Fine.event (ho : Order host s) (h : Fine s) {ev : CmEvent} (hev : s.event x = some ev)
    (hok : s.Timely x) :
    Fine { s with
      cb := Function.update s.cb x ((s.cb x).cmaEvent ev)
      event := Function.update s.event x
        (if ev = .addrResolved then some .routeResolved else none) } := by
  obtain ⟨hstart, -, hsetup, hposted, -⟩ := ho.side x
  obtain ⟨h1, h2, h3, h4, h5, h6, h7⟩ := h.side x
  have hsome : s.event x ≠ none := by rw [hev]; exact Option.some_ne_none ev
  refine h.update rfl (Function.update_eq_self _ _).symm Iff.rfl Iff.rfl
    ⟨⟨ev.state_ne.2.2, h1.2⟩, fun hleft => ?_, h3, fun hs hp => ?_, fun hs hp => ?_,
      fun hp hother => ?_, fun hp hl hi => ?_⟩
  · -- at the start and in the setup there is no event
    cases hpc : (s.cb x).pc <;> simp only [Endpoint.cmaEvent, hpc] at hleft
    case start => exact absurd (hstart hpc).1 hsome
    case setup => exact absurd (hsetup hpc).1 hsome
    case bind =>
      cases x with
      | server =>
        rcases (h5 rfl hpc).1 with hnone | hcr
        · exact absurd hnone hsome
        · rw [Option.some.inj (hev.symm.trans hcr)]
          show (CmEvent.state .connectRequest).val ≤ _
          decide
      | client =>
        rcases h4 rfl hpc with haddr | hroute | ⟨hnone, -⟩
        · rw [Option.some.inj (hev.symm.trans haddr)]
          show (CmEvent.state .addrResolved).val ≤ _
          decide
        · rw [Option.some.inj (hev.symm.trans hroute)]
          show (CmEvent.state .routeResolved).val ≤ _
          decide
        · exact absurd hnone hsome
    all_goals exact absurd hleft (by decide)
  · -- the address of the client is resolved, and then its route
    rcases h4 hs hp with haddr | hroute | ⟨hnone, -⟩
    · rw [Option.some.inj (hev.symm.trans haddr)]
      exact Or.inr (Or.inl rfl)
    · rw [Option.some.inj (hev.symm.trans hroute)]
      exact Or.inr (Or.inr ⟨rfl, rfl⟩)
    · exact absurd hnone hsome
  · -- the server that listens gets the request
    rcases (h5 hs hp).1 with hnone | hcr
    · exact absurd hnone hsome
    · rw [Option.some.inj (hev.symm.trans hcr)]
      exact ⟨Or.inl rfl, fun _ => Or.inr rfl⟩
  · rcases hposted hp with hnone | hest
    · exact absurd hnone hsome
    · rw [Option.some.inj (hev.symm.trans hest)]
      exact Or.inr rfl
  · -- an `ESTABLISHED` that would overwrite the info is not timely
    have hp' : (s.cb x).pc.posted = true := Pc.posted_of_waits hp
    rcases hposted hp' with hnone | hest
    · exact absurd hnone hsome
    · exact absurd ⟨hest, h7 hp hl hi, hp⟩ hok

/-- Every smooth step leaves both sides with something to come, or ready. -/
theorem Fine.step (ho : Order host s) (h : Fine s) {a : Step} (hok : s.Smooth a)
    (hs : s.step host a = some s') : Fine s' := by
  cases a <;> simp only [Handshake.step, Option.ite_none_right_eq_some, Option.some.injEq,
    Option.map_eq_some_iff] at hs
  case bind x =>
    obtain ⟨hc, rfl⟩ := hs
    exact h.bind ho hc
  case bound x =>
    obtain ⟨hc, rfl⟩ := hs
    exact h.bound hc.1 hc.2
  case setUp x =>
    obtain ⟨hc, rfl⟩ := hs
    cases x with
    | server => exact h.accept ho hc
    | client =>
      have hlistens : (s.cb .server).pc ≠ .start := hok rfl
      simp only [requested, if_neg hlistens]
      exact h.ask ho hc hlistens
  case connected x =>
    obtain ⟨⟨hpc, -⟩, rfl⟩ := hs
    simp only [if_neg (h.side x).ok.1]
    exact h.go (by rw [hpc]; rfl) rfl (h.side x).ok.1 Pc.noConfusion (by simp [hpc, Pc.left]) id
      fun _ => ⟨by rw [hpc]; rfl, rfl⟩
  case sendInfo x =>
    obtain ⟨hc, rfl⟩ := hs
    exact h.send hc _
  case readTable x =>
    obtain ⟨⟨hpc, -⟩, rfl⟩ := hs
    exact h.go (by rw [hpc]; rfl) rfl (h.side x).ok.1 Pc.noConfusion (by simp [hpc, Pc.left]) id
      fun hw => Bool.noConfusion hw
  case complete x =>
    obtain ⟨⟨hpc, -⟩, rfl⟩ := hs
    have hposted : (s.cb x).pc.posted = true := by rw [hpc]; rfl
    exact h.go hposted hposted (h.side x).ok.1 (h.side x).ok.2.2 Iff.rfl id fun hw => ⟨hw, rfl⟩
  case tableRead x =>
    obtain ⟨⟨hpc, -⟩, rfl⟩ := hs
    exact h.go (by rw [hpc]; rfl) rfl TestState.noConfusion Pc.noConfusion (by simp [hpc, Pc.left])
      (fun _ => rfl) fun hw => Bool.noConfusion hw
  case event x =>
    obtain ⟨hc, ev, hev, rfl⟩ := hs
    exact h.event ho hev hok
  case recv x =>
    obtain ⟨hc, bs, hbs, rfl⟩ := hs
    exact h.recv hc.1 bs
  all_goals exact absurd hok id

theorem Fine.init : Fine init := by
  refine ⟨fun _ => rfl, fun x => ⟨⟨TestState.noConfusion, Pc.noConfusion, Pc.noConfusion⟩,
    fun _ => ?_, fun _ _ => ?_, fun _ hp => Pc.noConfusion hp, fun _ hp => Pc.noConfusion hp,
    fun hp => Bool.noConfusion hp, fun hp => Bool.noConfusion hp⟩⟩
  · cases x <;> decide
  · cases x <;> decide

end Alive

/-! ### No thread is stuck, and none goes on forever -/

section Progress

variable {host : Side → Host} {s s' : Handshake}

/-- How much an event can still bring about. -/
def CmEvent.weight : Option CmEvent → ℕ
  | none => 0
  | some .addrResolved => 2
  | some _ => 1

/-- How much a side has still to do. -/
def weight (s : Handshake) (x : Side) : ℕ :=
  4 * (s.cb x).pc.left + CmEvent.weight (s.event x) + (s.infos x).length +
    (1 - (s.cb x).semRead)

/-- A request or an acceptance brings each side at most one event. -/
theorem weight_requested (s : Handshake) (x y : Side) :
    CmEvent.weight (s.requested x y) ≤ CmEvent.weight (s.event y) + 1 := by
  have hone : ∀ n, 1 ≤ n + 1 := fun n => Nat.le_add_left 1 n
  cases x with
  | server => exact hone _
  | client =>
    cases y with
    | client =>
      rw [requested_client]
      exact Nat.le_succ _
    | server =>
      simp only [requested]
      split
      · exact Nat.le_succ _
      · exact hone _

/-- Less to do for one side is less to do. -/
theorem weight_lt_of_side {x : Side} (hx : s'.weight x < s.weight x)
    (hother : s'.weight x.other = s.weight x.other) :
    s'.weight .server + s'.weight .client < s.weight .server + s.weight .client := by
  cases x
  · exact Nat.add_lt_add_of_lt_of_le hx (Nat.le_of_eq hother)
  · exact Nat.add_lt_add_of_le_of_lt (Nat.le_of_eq hother) hx

/-- Every smooth step leaves less to do. -/
theorem weight_lt {a : Step} (hok : s.Smooth a) (hs : s.step host a = some s') :
    s'.weight .server + s'.weight .client < s.weight .server + s.weight .client := by
  cases a <;> simp only [step, Option.ite_none_right_eq_some, Option.some.injEq,
    Option.map_eq_some_iff] at hs
  case bind x =>
    obtain ⟨hc, rfl⟩ := hs
    cases x <;> simp [weight, hc, Pc.left, CmEvent.weight]
    omega
  case bound x =>
    obtain ⟨hc, rfl⟩ := hs
    refine weight_lt_of_side (x := x) ?_ (by simp [weight])
    simp only [weight, Function.update_self, hc.1]
    split <;> simp [Pc.left]
  case setUp x =>
    -- the two events weigh less than the way of the thread
    obtain ⟨hc, rfl⟩ := hs
    have hserver := weight_requested s x .server
    have hclient := weight_requested s x .client
    cases x <;> simp [weight, hc, Pc.left] at hserver hclient ⊢ <;> omega
  case connected x =>
    obtain ⟨hc, rfl⟩ := hs
    refine weight_lt_of_side (x := x) ?_ (by simp [weight])
    simp only [weight, Function.update_self, hc.1]
    split <;> simp [Pc.left]
  case sendInfo x =>
    obtain ⟨hc, rfl⟩ := hs
    cases x <;> simp [weight, hc, Pc.left, Side.other]
    all_goals omega
  case readTable x =>
    obtain ⟨hc, rfl⟩ := hs
    refine weight_lt_of_side (x := x) ?_ (by simp [weight])
    simp [weight, hc.1, Pc.left]
  case complete x =>
    obtain ⟨hc, rfl⟩ := hs
    refine weight_lt_of_side (x := x) ?_ (by simp [weight])
    simp [weight, hc.2.1]
  case tableRead x =>
    obtain ⟨hc, rfl⟩ := hs
    refine weight_lt_of_side (x := x) ?_ (by simp [weight])
    simp [weight, hc.1, Pc.left]
    omega
  case event x =>
    obtain ⟨hc, ev, hev, rfl⟩ := hs
    have hlt : CmEvent.weight (if ev = .addrResolved then some .routeResolved else none) <
        CmEvent.weight (some ev) := by cases ev <;> decide
    refine weight_lt_of_side (x := x) ?_ (by simp [weight])
    simp [weight, hev, Endpoint.cmaEvent, hlt]
  case recv x =>
    obtain ⟨hc, bs, hbs, rfl⟩ := hs
    have hlen : 0 < (s.infos x).length := List.length_pos_of_mem (List.mem_of_mem_head? hbs)
    refine weight_lt_of_side (x := x) ?_ (by simp [weight])
    simp [weight, Endpoint.recvInfo]
    omega
  all_goals exact absurd hok id

/-- Some smooth step can be taken. -/
def Can (host : Side → Host) (s : Handshake) : Prop := ∃ a s', s.Smooth a ∧ s.step host a = some s'

theorem can_of_some {a : Step} (hok : s.Smooth a) (hs : (s.step host a).isSome = true) :
    Can host s := by
  obtain ⟨s', hs'⟩ := Option.isSome_iff_exists.mp hs
  exact ⟨a, s', hok, hs'⟩

/-- An event that has come can be delivered to a thread that does not wait for an info. -/
theorem Fine.can_event (h : Fine s) {x : Side} {ev : CmEvent} (hev : s.event x = some ev)
    (hok : s.Timely x) : Can host s :=
  can_of_some (a := .event x) hok (by simp only [Handshake.step, if_pos (h.up x), hev]; rfl)

theorem timely_of_waits {x : Side} (h : (s.cb x).pc.waits = false) : s.Timely x := fun hc => by
  rw [h] at hc
  exact Bool.noConfusion hc.2.2

theorem can_bind {x : Side} (hpc : (s.cb x).pc = .start) : Can host s :=
  can_of_some (a := .bind x) trivial (by simp only [Handshake.step, if_pos hpc]; rfl)

theorem can_setUp {x : Side} (hpc : (s.cb x).pc = .setup)
    (hlistens : x = .client → (s.cb .server).pc ≠ .start) : Can host s :=
  can_of_some (a := .setUp x) hlistens (by simp only [Handshake.step, if_pos hpc]; rfl)

/-- A wait for the connection request or the route is over. -/
theorem can_bound {x : Side} (hpc : (s.cb x).pc = .bind) (hstate : (s.cb x).state = bindState x) :
    Can host s :=
  can_of_some (a := .bound x) trivial (by
    simp only [Handshake.step]
    rw [if_pos ⟨hpc, by rw [hstate]⟩]
    rfl)

/-- A client that has not asked can go on, or the server can begin to listen. -/
theorem Fine.can_client (h : Fine s) (hleft : 5 ≤ (s.cb .client).pc.left) : Can host s := by
  cases hpc : (s.cb .client).pc
  case start => exact can_bind hpc
  case setup =>
    by_cases hstart : (s.cb .server).pc = .start
    · exact can_bind hstart
    · exact can_setUp hpc fun _ => hstart
  case bind =>
    have htimely : s.Timely .client := timely_of_waits (by rw [hpc]; rfl)
    rcases (h.side .client).resolved rfl hpc with hev | hev | ⟨-, hstate⟩
    · exact h.can_event hev htimely
    · exact h.can_event hev htimely
    · exact can_bound hpc hstate
  all_goals
    rw [hpc] at hleft
    exact absurd hleft (by decide)

/-- A side whose peer has asked or accepted can go on until it has sent its info. -/
theorem Fine.can_send (h : Fine s) {x : Side} (hleft : 3 ≤ (s.cb x).pc.left)
    (hother : (s.cb x.other).pc.left ≤ 4) : Can host s := by
  cases hpc : (s.cb x).pc
  case start => exact can_bind hpc
  case bind =>
    have htimely : s.Timely x := timely_of_waits (by rw [hpc]; rfl)
    cases x with
    | server =>
      rcases ((h.side .server).asked rfl hpc).2 hother with hev | hstate
      · exact h.can_event hev htimely
      · exact can_bound hpc hstate
    | client => exact h.can_client (by rw [hpc]; decide)
  case setup =>
    apply can_setUp hpc
    intro hx hstart
    subst hx
    rw [show (s.cb Side.client.other).pc = .start from hstart] at hother
    exact absurd hother (by decide)
  case connect =>
    -- `ESTABLISHED` is still to come, or the thread need not wait for it
    cases hlate : (s.cb x).state.late
    · have hev := ((h.side x).accepted (by rw [hpc]; rfl) (Or.inr hother)).resolve_right
        (by rw [hlate]; exact Bool.noConfusion)
      apply h.can_event hev
      intro hc
      rw [hc.2.1] at hlate
      exact Bool.noConfusion hlate
    · apply can_of_some (a := .connected x) trivial
      simp only [Handshake.step]
      rw [if_pos ⟨hpc, TestState.le_of_late hlate⟩]
      rfl
  case test =>
    apply can_of_some (a := .sendInfo x) trivial
    simp only [Handshake.step, if_pos hpc]
    rfl
  all_goals
    rw [hpc] at hleft
    exact absurd hleft (by decide)

/-- When both infos are sent a side can go on until it is ready. -/
theorem Fine.can_read (h : Fine s) {x : Side}
    (hk : Knows (host x.other) (s.cb x) (s.event x) (s.down x)) (hleft : (s.cb x).pc.left ≤ 2)
    (hother : (s.cb x.other).pc.left ≤ 2) : (s.cb x).pc = .ready ∨ Can host s := by
  obtain ⟨herr, hfailed, hunread⟩ := (h.side x).ok
  cases hpc : (s.cb x).pc
  case ready => exact Or.inl rfl
  case info =>
    right
    cases hinfos : s.infos x with
    | nil =>
      -- the info has come, and nothing has overwritten its `RECV_INFO`
      have hstate := (h.side x).recvd (by rw [hpc]; rfl) hother hinfos
      apply can_of_some (a := .readTable x) trivial
      simp only [Handshake.step]
      rw [if_pos ⟨hpc, by rw [hstate]⟩]
      rfl
    | cons bs rest =>
      apply can_of_some (a := .recv x) trivial
      simp only [Handshake.step]
      rw [if_pos ⟨by rw [hpc]; rfl, herr⟩, hinfos]
      rfl
  case table =>
    right
    -- the read is to complete, or has completed and upped the semaphore
    rcases Nat.eq_zero_or_pos (s.cb x).semRead with hsem | hsem
    · apply can_of_some (a := .complete x) trivial
      have hremote := (hk.table hpc).resolve_right fun hc => herr hc.1
      simp only [Handshake.step]
      rw [if_pos ⟨hpc, hsem, herr, by rw [hremote]; rfl⟩]
      rfl
    · apply can_of_some (a := .tableRead x) trivial
      simp only [Handshake.step]
      rw [if_pos ⟨hpc, hsem⟩]
      rfl
  case failed => exact absurd hpc hfailed
  case unread => exact absurd hpc hunread
  all_goals
    rw [hpc] at hleft
    exact absurd hleft (by decide)

/-- Some smooth step can be taken until both sides are ready. -/
theorem Fine.can (h : Fine s)
    (hk : ∀ x, Knows (host x.other) (s.cb x) (s.event x) (s.down x)) :
    (∀ x, (s.cb x).pc = .ready) ∨ Can host s := by
  -- the client goes on until it has asked, then either side until its info is sent
  by_cases hclient : 5 ≤ (s.cb .client).pc.left
  · exact Or.inr (h.can_client hclient)
  by_cases hserver : 3 ≤ (s.cb .server).pc.left
  · exact Or.inr (h.can_send (x := .server) hserver (Nat.le_of_not_lt hclient))
  by_cases hclient' : 3 ≤ (s.cb .client).pc.left
  · exact Or.inr (h.can_send (x := .client) hclient' (by show (s.cb .server).pc.left ≤ 4; omega))
  have hleft : ∀ x, (s.cb x).pc.left ≤ 2 := fun x => by cases x <;> omega
  rcases h.can_read (hk .server) (hleft _) (hleft _) with hs | hcan
  · rcases h.can_read (hk .client) (hleft _) (hleft _) with hc | hcan
    · exact Or.inl fun x => by cases x <;> assumption
    · exact Or.inr hcan
  · exact Or.inr hcan

/-- **If every step is smooth both sides come to `RDMA_READY`**, in whatever order the steps
are taken: until then some smooth step can be taken, and no run of them is endless.  Smooth
says that no call fails, that the server listens when the client asks, and that no
`ESTABLISHED` overwrites an info that is still waited for. -/
theorem eventually_ready (h : Machine.Reach (machine host) Smooth s) :
    Machine.Eventually (machine host) Smooth (fun s => ∀ x, (s.cb x).pc = .ready) s := by
  have hfine : Fine s := h.invariant (I := Fine) (fun _ h0 => h0 ▸ Fine.init)
    fun _ _ _ hr hinv hok hs => hinv.step (reach_order (hr.mono fun _ _ _ => trivial)) hok hs
  refine Machine.Eventually.of_measure (I := fun s => Reach host s ∧ Fine s)
    (μ := fun s => s.weight .server + s.weight .client) (fun t ht => ?_)
    (fun t a t' ht hok hs => ?_) (fun _ _ _ hok hs => weight_lt hok hs) s
    ⟨h.mono fun _ _ _ => trivial, hfine⟩
  · exact ht.2.can fun x => reach_knows ht.1 x
  · exact ⟨ht.1.next trivial hs, ht.2.step (reach_order ht.1) hok hs⟩

/-- From the start. -/
theorem eventually_ready_twoHosts : Machine.Eventually (machine twoHosts) Smooth
    (fun s => ∀ x, (s.cb x).pc = .ready) init := eventually_ready (.start rfl)

end Progress

/-! ### A side that misses the info -/

section Never

variable {host : Side → Host} {s s' t : Handshake} {x : Side}

/-- A thread that no longer gets ready: it waits for an info that has been overwritten, or it
cannot read the table, or it has ended. -/
def Stuck (e : Endpoint) (c : Option CmEvent) (infos : List (List UInt8)) (down : Bool) : Prop :=
  (e.pc.waits = true ∧ e.state = .connected ∧ c = none ∧ infos = []) ∨
    ((e.pc.waits = true ∨ e.pc = .table) ∧ e.state = .error ∧ (c = none ∨ down = true)) ∨
      e.pc = .failed ∨ e.pc = .unread

section Stuck

variable {e : Endpoint} {c : Option CmEvent} {infos : List (List UInt8)} {down down' : Bool}

/-- Where a stuck thread is. -/
theorem Stuck.pc (h : Stuck e c infos down) :
    e.pc.waits = true ∨ e.pc = .table ∨ e.pc = .failed ∨ e.pc = .unread := by
  rcases h with ⟨hw, -⟩ | ⟨hw | ht, -⟩ | hf
  · exact Or.inl hw
  · exact Or.inl hw
  · exact Or.inr (Or.inl ht)
  · exact Or.inr (Or.inr hf)

/-- A thread that has ended stays so whatever its handlers set. -/
theorem Stuck.of_ended (h : e.pc = .failed ∨ e.pc = .unread) : Stuck e c infos down :=
  Or.inr (Or.inr h)

/-- An event reaches a stuck thread only if it has ended. -/
theorem Stuck.ended_of_event (h : Stuck e c infos down) {ev : CmEvent} (hc : c = some ev)
    (hd : down = false) : e.pc = .failed ∨ e.pc = .unread := by
  have hsome : c ≠ none := by rw [hc]; exact Option.some_ne_none ev
  rcases h with ⟨-, -, hnone, -⟩ | ⟨-, -, hnone | hdown⟩ | hp
  · exact absurd hnone hsome
  · exact absurd hnone hsome
  · exact absurd (hd.symm.trans hdown) (by decide)
  · exact hp

/-- An info reaches a stuck thread only if it has ended. -/
theorem Stuck.ended_of_info (h : Stuck e c infos down) {bs : List UInt8}
    (hbs : infos.head? = some bs) (herr : e.state ≠ .error) : e.pc = .failed ∨ e.pc = .unread := by
  rcases h with ⟨-, -, -, hnil⟩ | ⟨-, hst, -⟩ | hp
  · rw [hnil] at hbs
    cases hbs
  · exact absurd hst herr
  · exact hp

/-- An error leaves a stuck thread stuck. -/
theorem Stuck.error (h : Stuck e c infos down) (hd : down = true → down' = true) :
    Stuck { e with state := .error } c infos down' := by
  rcases h with ⟨hw, -, hnone, -⟩ | ⟨hw, -, hlost⟩ | hp
  · exact Or.inr (Or.inl ⟨Or.inl hw, rfl, Or.inl hnone⟩)
  · exact Or.inr (Or.inl ⟨hw, rfl, hlost.imp_right hd⟩)
  · exact Or.inr (Or.inr hp)

/-- A stuck thread that still waits for `CONNECTED` or sends its info stays stuck. -/
theorem Stuck.go (h : Stuck e c infos down) (hw : e.pc.waits = true) {p : Pc}
    (hp : p.waits = true) : Stuck { e with pc := p } c infos down := by
  rcases h with ⟨-, hrest⟩ | ⟨-, hrest⟩ | hf | hf
  · exact Or.inl ⟨hp, hrest⟩
  · exact Or.inr (Or.inl ⟨Or.inl hp, hrest⟩)
  · rw [hf] at hw
    cases hw
  · rw [hf] at hw
    cases hw

/-- A stuck thread stops waiting for the info only after an error. -/
theorem Stuck.waited (h : Stuck e c infos down) (hpc : e.pc = .info)
    (hval : TestState.recvInfo.val ≤ e.state.val) :
    Stuck { e with pc := .table } c infos down := by
  rcases h with ⟨-, hst, -⟩ | ⟨-, hrest⟩ | hf | hf
  · rw [hst] at hval
    exact absurd hval (by decide)
  · exact Or.inr (Or.inl ⟨Or.inr rfl, hrest⟩)
  · exact absurd (hpc.symm.trans hf) (by decide)
  · exact absurd (hpc.symm.trans hf) (by decide)

end Stuck

/-- A stuck side, with nothing more to come from the other. -/
structure Hung (x : Side) (s : Handshake) : Prop where
  other : (s.cb x.other).pc.left ≤ 2
  sem : (s.cb x).semRead = 0
  stuck : Stuck (s.cb x) (s.event x) (s.infos x) (s.down x)

/-- An error is reported to one side only. -/
theorem down_back {a : Step} (hs : s.step host a = some s') (hx : x ≠ a.side) :
    s'.down x = s.down x := by
  cases a <;> simp only [Handshake.step, Option.ite_none_right_eq_some, Option.some.injEq,
    Option.map_eq_some_iff] at hs
  case fail y =>
    obtain rfl := hs
    exact Function.update_of_ne hx _ _
  case event y =>
    obtain ⟨-, ev, -, rfl⟩ := hs
    rfl
  case recv y =>
    obtain ⟨-, bs, -, rfl⟩ := hs
    rfl
  all_goals
    obtain ⟨-, rfl⟩ := hs
    rfl

/-- The other side, which is past its acceptance and its info, brings a stuck side nothing. -/
theorem Hung.step_other (h : Hung x s) {a : Step} (hs : s.step host a = some s')
    (hx : x ≠ a.side) :
    (s'.cb x).semRead = 0 ∧ Stuck (s'.cb x) (s'.event x) (s'.infos x) (s'.down x) := by
  obtain ⟨hother, hsem, hstuck⟩ := h
  obtain ⟨hcb, hevent⟩ := step_frame hs hx
  have hside : a.side = x.other := Side.eq_other (Ne.symm hx)
  have hevent' : s'.event x = s.event x := by
    apply hevent.resolve_right
    intro hpc
    rw [hside] at hpc
    have hle := (left_le hs x.other).trans hother
    rw [hpc] at hle
    exact absurd hle (by decide)
  have hinfos : s'.infos x = s.infos x := by
    rcases infos_back hs x with heq | ⟨-, rfl⟩ | ⟨-, htest, -⟩
    · exact heq
    · exact absurd rfl hx
    · rw [htest] at hother
      exact absurd hother (by decide)
  rw [hcb, hevent', hinfos, down_back hs hx]
  exact ⟨hsem, hstuck⟩

/-- The thread of a stuck side finds no info to go on with, or it goes on after an error and
finds no table; nothing its handlers do brings either. -/
theorem Hung.step_own (h : Hung x s) {a : Step} (hs : s.step host a = some s')
    (hx : a.side = x) :
    (s'.cb x).semRead = 0 ∧ Stuck (s'.cb x) (s'.event x) (s'.infos x) (s'.down x) := by
  obtain ⟨-, hsem, hstuck⟩ := h
  subst hx
  have hpc := hstuck.pc
  have hpcs : ∀ {p : Pc}, (s.cb a.side).pc = p →
      p.waits = true ∨ p = .table ∨ p = .failed ∨ p = .unread := fun hp => hp ▸ hpc
  cases a <;> simp only [Handshake.step, Option.ite_none_right_eq_some, Option.some.injEq,
    Option.map_eq_some_iff] at hs <;> simp only [Step.side] at hsem hstuck hpcs ⊢
  -- before it asks or accepts a thread is not stuck
  case bind y => exact absurd (hpcs hs.1) (by decide)
  case bound y => exact absurd (hpcs hs.1.1) (by decide)
  case setUp y => exact absurd (hpcs hs.1) (by decide)
  case abort y => rcases hs.1 with hp | hp <;> exact absurd (hpcs hp) (by decide)
  case connected y =>
    obtain ⟨⟨hp, -⟩, rfl⟩ := hs
    simp only [Function.update_self]
    refine ⟨hsem, ?_⟩
    split
    · exact .of_ended (Or.inl rfl)
    · exact hstuck.go (by rw [hp]; rfl) rfl
  case sendInfo y =>
    obtain ⟨hp, rfl⟩ := hs
    simp only [Function.update_self, Function.update_of_ne (Side.ne_other y)]
    exact ⟨hsem, hstuck.go (by rw [hp]; rfl) rfl⟩
  case noSend y =>
    obtain ⟨hp, rfl⟩ := hs
    simp only [Function.update_self]
    exact ⟨hsem, hstuck.go (by rw [hp]; rfl) rfl⟩
  case readTable y =>
    obtain ⟨⟨hp, hval⟩, rfl⟩ := hs
    simp only [Function.update_self]
    exact ⟨hsem, hstuck.waited hp hval⟩
  case noRead y =>
    obtain ⟨-, rfl⟩ := hs
    simp only [Function.update_self]
    exact ⟨hsem, .of_ended (Or.inr rfl)⟩
  case complete y =>
    -- a thread that waits for the table has had an error
    obtain ⟨⟨hp, -, herr, -⟩, -⟩ := hs
    rcases hstuck with ⟨hw, -⟩ | ⟨-, hst, -⟩ | hf | hf
    · rw [hp] at hw
      cases hw
    · exact absurd hst herr
    · exact absurd (hp.symm.trans hf) (by decide)
    · exact absurd (hp.symm.trans hf) (by decide)
  case tableRead y =>
    obtain ⟨⟨-, hpos⟩, -⟩ := hs
    rw [hsem] at hpos
    exact absurd hpos (by decide)
  case event y =>
    obtain ⟨hd, ev, hev, rfl⟩ := hs
    simp only [Function.update_self]
    exact ⟨hsem, .of_ended (hstuck.ended_of_event hev hd)⟩
  case noRoute y =>
    obtain ⟨⟨hd, hev⟩, rfl⟩ := hs
    simp only [Function.update_self]
    exact ⟨hsem, .of_ended (hstuck.ended_of_event hev hd)⟩
  case recv y =>
    obtain ⟨⟨-, herr⟩, bs, hbs, rfl⟩ := hs
    simp only [Function.update_self]
    exact ⟨hsem, .of_ended (hstuck.ended_of_info hbs herr)⟩
  case fail y =>
    obtain rfl := hs
    simp only [Function.update_self]
    exact ⟨hsem, hstuck.error fun _ => rfl⟩
  case cqError y =>
    obtain ⟨-, rfl⟩ := hs
    simp only [Function.update_self]
    exact ⟨hsem, hstuck.error id⟩

/-- **A side that is stuck stays stuck**, whichever side takes a step. -/
theorem Hung.step (h : Hung x s) {a : Step} (hs : s.step host a = some s') : Hung x s' := by
  have hother := (left_le hs x.other).trans h.other
  obtain ⟨hsem, hstuck⟩ : (s'.cb x).semRead = 0 ∧
      Stuck (s'.cb x) (s'.event x) (s'.infos x) (s'.down x) := by
    rcases eq_or_ne a.side x with hx | hx
    · exact h.step_own hs hx
    · exact h.step_other hs hx.symm
  exact ⟨hother, hsem, hstuck⟩

/-- **After an `ESTABLISHED` that is not timely its side never comes to `RDMA_READY`**,
whatever happens.  The info that set `RECV_INFO` is overwritten and is not sent again; after a
later error the thread may still up `sem_ready`, but without the table. -/
theorem never_ready (h : Reach host s) (hlate : ¬ s.Timely x)
    (hs : s.step host (.event x) = some s')
    (ht : Machine.Reach ((machine host).since s') Machine.free t) : (t.cb x).pc ≠ .ready := by
  obtain ⟨hev, hstate, hwaits⟩ := not_not.mp hlate
  have hhung : Hung x s' := by
    obtain ⟨hinfos, hleft⟩ := (reach_order h).recvd x hstate
    have hsem := (reach_knows h x).sem.2 fun hpc => by
      rw [hpc] at hwaits
      exact Bool.noConfusion hwaits
    simp only [step, Option.ite_none_right_eq_some, Option.map_eq_some_iff] at hs
    obtain ⟨-, ev, hev', rfl⟩ := hs
    obtain rfl := Option.some.inj (hev.symm.trans hev')
    refine ⟨?_, ?_, Or.inl ⟨?_, ?_, ?_, hinfos⟩⟩ <;> simp only [Function.update_self, update_other]
    · exact hleft
    · exact hsem
    · exact hwaits
    · rfl
    · rfl
  have hthung : Hung x t :=
    ht.invariant (I := Hung x) (fun _ h0 => h0 ▸ hhung) fun _ _ _ _ hinv _ hs =>
      hinv.step hs
  intro hready
  rcases hthung.stuck with ⟨hw, -⟩ | ⟨hw | hw, -⟩ | hw | hw <;> rw [hready] at hw <;> cases hw

/-- The client's info comes before the server's `ESTABLISHED`: the client gets ready, and the
server, which has sent its own info, waits on. -/
theorem never_ready_twoHosts : ∃ s s' t, Reach twoHosts s ∧
    s.step twoHosts (.event .server) = some s' ∧
      Machine.Reach ((machine twoHosts).since s') Machine.free t ∧ (t.cb .client).pc = .ready ∧
        (t.cb .server).pc ≠ .ready := by
  obtain ⟨s, hexec, hlate, s', hs, t, hexec', hready⟩ :
      ∃ s, Machine.exec Machine.free (step twoHosts) init
        [.bind .server, .bind .client, .event .client, .event .client, .bound .client,
          .setUp .client, .event .server, .bound .server, .setUp .server, .event .client,
          .connected .client, .sendInfo .client, .recv .server] = some s ∧ ¬ s.Timely .server ∧
      ∃ s', s.step twoHosts (.event .server) = some s' ∧
        ∃ t, Machine.exec Machine.free (step twoHosts) s'
          [.connected .server, .sendInfo .server, .recv .client, .readTable .client,
            .complete .client, .tableRead .client] = some t ∧ (t.cb .client).pc = .ready :=
    ⟨_, rfl, by decide, _, rfl, _, rfl, by decide⟩
  have hreach : Reach twoHosts s :=
    Machine.Reach.of_exec (M := machine twoHosts) (fun _ _ _ h => h) (.start rfl) hexec
  have hlater : Machine.Reach ((machine twoHosts).since s') Machine.free t :=
    Machine.Reach.of_exec (M := (machine twoHosts).since s') (fun _ _ _ h => h) (.start rfl) hexec'
  exact ⟨s, s', t, hreach, hs, hlater, hready, never_ready hreach hlate hs hlater⟩

end Never

end Handshake
end Comex
