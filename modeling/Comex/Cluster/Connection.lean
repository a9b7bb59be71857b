import Comex.Lib.Completions
import Comex.Lib.Runs
import Mathlib.Data.Fintype.Basic

/-!
# Transfers over one connection

`krping.c`: the threads of a node post work requests on the queue pair of a
connection and wait at semaphores that `krping_cq_event_handler_send` ups as the
requests complete, in the order of posting.  A `do_write` has a semaphore of its own.
All reads share `sem_read`, since the `sem_read_able` around them is commented out,
and all signaled sends share `sem_verb_ack`, where the send of the connection setup
has left a token nobody has waited for.

## Main definitions

* `Sem`, `Connection` — the semaphores, and a `krping_cb` with its threads.
* `next` — the steps of the setup, of `do_read`, `do_write` and `universal_send`.
* `Alone` — the steps after which no token can go to the wrong thread.
* `Effect` — what a step does to the work requests.

## Main results

* `reach_own` — a `do_write` returns after its own write, and **while every step is
  alone so does every call after its own transfer**; each other step can be followed
  by a return that comes too early.
* `not_own` — a read returns when another one has completed.
-/

namespace Comex

/-- `sem_verb_ack`, `sem_read`, and the `sem_write` of a thread's `do_write`. -/
inductive Sem (T : Type)
  | verbAck
  | read
  | write (t : T)
  deriving DecidableEq, Repr

/-- How far the setup of a connection has come. -/
inductive Setup
  | connected
  /-- `send_buffer_info` has posted its send. -/
  | infoSent
  /-- `do_read_bufferptr` has returned. -/
  | ready
  deriving DecidableEq, Repr

/-- A call that has returned 0: the semaphore it has waited at, and whether its own work
request had completed. -/
structure Return (T : Type) where
  sem : Sem T
  own : Bool
  deriving DecidableEq, Repr

/-- A `krping_cb` with the threads that use it. -/
structure Connection (T : Type) where
  setup : Setup
  vslotusing : ℕ
  semReadAble : ℕ
  /-- A `universal_send` that has taken a slot and not posted yet. -/
  slot : T → Option ℕ
  /-- The signaled work requests; `none` is the thread that sets the connection up. -/
  queue : Completions (Sem T) (Option T)
  /-- History: the calls that have returned. -/
  returns : List (Return T)

namespace Connection

variable {T : Type}

/-- `VERB_SEND_SLOT`. -/
def verbSendSlot : ℕ := 24

/-- `krping_setup_wr` sets `IB_SEND_SIGNALED` for the slot. -/
def signaled (slot : ℕ) : Prop := slot % 4 = 0

instance (slot : ℕ) : Decidable (signaled slot) := inferInstanceAs (Decidable (_ = _))

/-- An atomic step. -/
inductive Step (T : Type)
  | sendBufferInfo
  /-- `do_read_bufferptr` up to the post. -/
  | readBufferptr
  /-- `do_read_bufferptr` gets `sem_read` and returns. -/
  | bufferptrDone
  /-- `do_read` up to the post. -/
  | doRead (t : T)
  /-- `do_write` up to the post. -/
  | doWrite (t : T)
  /-- `universal_send` takes a slot under `sem_verb_mutex`. -/
  | takeSlot (t : T)
  /-- `universal_send` posts, and returns if the slot is not signaled. -/
  | universalSend (t : T)
  /-- `krping_cq_event_handler_send` gets the next completion. -/
  | complete
  /-- A call gets its semaphore and returns. -/
  | down (t : T)
  deriving DecidableEq, Repr

/-- A connection that has just been established. -/
def init : Connection T where
  setup := .connected
  vslotusing := 0
  semReadAble := 1
  slot _ := none
  queue := .init
  returns := []

/-- The connection can be used, and the thread is in no call. -/
def idle (s : Connection T) (t : T) : Prop :=
  s.setup = .ready ∧ s.slot t = none ∧ s.queue.waiting (some t) = none

instance (s : Connection T) (t : T) : Decidable (s.idle t) :=
  inferInstanceAs (Decidable (_ ∧ s.slot t = none ∧ s.queue.waiting (some t) = none))

variable [DecidableEq T]

/-- One step, if it is enabled. -/
def next (s : Connection T) : Step T → Option (Connection T)
  | .sendBufferInfo =>
    if s.setup = .connected then
      some { s with
        setup := .infoSent
        vslotusing := (s.vslotusing + 1) % verbSendSlot
        queue := if signaled s.vslotusing then s.queue.issue .verbAck else s.queue }
    else none
  | .readBufferptr =>
    if s.setup = .infoSent ∧ s.queue.waiting none = none ∧ 0 < s.semReadAble then
      some { s with
        semReadAble := s.semReadAble - 1
        queue := s.queue.post none .read }
    else none
  | .bufferptrDone =>
    (s.queue.down none).map fun queue =>
      { s with
        setup := .ready
        semReadAble := s.semReadAble + 1
        queue := queue }
  | .doRead t =>
    if s.idle t then some { s with queue := s.queue.post (some t) .read } else none
  | .doWrite t =>
    if s.idle t then
      some { s with queue := (s.queue.reset (.write t)).post (some t) (.write t) }
    else none
  | .takeSlot t =>
    if s.idle t then
      some { s with
        vslotusing := (s.vslotusing + 1) % verbSendSlot
        slot := Function.update s.slot t (some s.vslotusing) }
    else none
  | .universalSend t =>
    (s.slot t).map fun slot =>
      { s with
        slot := Function.update s.slot t none
        queue := if signaled slot then s.queue.post (some t) .verbAck else s.queue }
  | .complete => s.queue.complete.map fun queue => { s with queue := queue }
  | .down t =>
    (s.queue.waiting (some t)).bind fun x =>
      (s.queue.down (some t)).map fun queue =>
        { s with
          queue := queue
          returns := s.returns ++ [⟨x.1, decide (x.2 < s.queue.delivered)⟩] }

/-- The states of a connection whose steps meet a guard. -/
abbrev Reach (ok : Connection T → Step T → Prop) (s : Connection T) : Prop :=
  Machine.Reach (.ofPartial init next) ok s

/-- Every call has returned after its own work request had completed. -/
def Own (s : Connection T) : Prop := ∀ r ∈ s.returns, r.own = true

/-- A read is posted while no `do_read` is between its post and its return, and
`universal_send` gets a slot that is not signaled. -/
def Alone (s : Connection T) : Step T → Prop
  | .doRead _ => ∀ u, ∀ x ∈ s.queue.waiting (some u), x.1 ≠ .read
  | .takeSlot _ => ¬ signaled s.vslotusing
  | _ => True

instance [Fintype T] (s : Connection T) : (a : Step T) → Decidable (s.Alone a)
  | .doRead _ => inferInstanceAs (Decidable (∀ u, ∀ x ∈ s.queue.waiting (some u), x.1 ≠ .read))
  | .takeSlot _ => inferInstanceAs (Decidable (¬ signaled s.vslotusing))
  | .sendBufferInfo | .readBufferptr | .bufferptrDone | .doWrite _ | .universalSend _ | .complete
  | .down _ => inferInstanceAs (Decidable True)

/-! ### What every run keeps -/

/-- Nobody waits at the semaphore. -/
def Unwaited (q : Completions (Sem T) (Option T)) (k : Sem T) : Prop :=
  ∀ u i, q.waiting u ≠ some (k, i)

/-- What holds of a connection in every run. -/
structure Base (s : Connection T) : Prop where
  /-- The threads do nothing before the setup is done. -/
  early : s.setup ≠ .ready → ∀ t, s.slot t = none ∧ s.queue.waiting (some t) = none
  settled : s.setup ≠ .infoSent → s.queue.waiting none = none
  busy : ∀ t k, s.slot t = some k → s.queue.waiting (some t) = none
  owner : ∀ u t i, s.queue.waiting u = some (.write t, i) → u = some t
  writes : ∀ t, Completions.Sole (.write t) s.queue

/-- The step posts a request that the thread waits for at the semaphore. -/
inductive Posts (s : Connection T) : Step T → Option T → Sem T → Prop
  | table : s.setup = .infoSent → s.queue.waiting none = none → Posts s .readBufferptr none .read
  | read {t : T} : s.idle t → Posts s (.doRead t) (some t) .read
  | write {t : T} : s.idle t → Posts s (.doWrite t) (some t) (.write t)
  | send {t : T} {n : ℕ} : s.slot t = some n → signaled n →
    Posts s (.universalSend t) (some t) .verbAck

/-- A `do_write` makes its semaphore anew before it posts. -/
def prepared (q : Completions (Sem T) (Option T)) : Sem T → Completions (Sem T) (Option T)
  | .write t => q.reset (.write t)
  | .verbAck | .read => q

/-- What a step does to the work requests and their waiters. -/
inductive Effect (s : Connection T) : Step T → Completions (Sem T) (Option T) → Prop
  | keep {a : Step T} : Effect s a s.queue
  | info : Effect s .sendBufferInfo (s.queue.issue .verbAck)
  | post {a : Step T} {u : Option T} {k : Sem T} : Posts s a u k →
    Effect s a ((prepared s.queue k).post u k)
  | complete {q : Completions (Sem T) (Option T)} : s.queue.complete = some q →
    Effect s .complete q
  | down {a : Step T} {u : Option T} {q : Completions (Sem T) (Option T)} :
    s.queue.down u = some q → Effect s a q

section Steps

variable {s s' : Connection T} {a : Step T} {k : Sem T} {q : Completions (Sem T) (Option T)}

/-- What a step does to the queue pair: every later fact about it is proved from these cases. -/
theorem next_effect (hs : s.next a = some s') : Effect s a s'.queue := by
  cases a with
  | sendBufferInfo =>
    simp only [next, Option.ite_none_right_eq_some, Option.some.injEq] at hs
    obtain ⟨-, rfl⟩ := hs
    simp only
    split
    · exact .info
    · exact .keep
  | readBufferptr =>
    simp only [next, Option.ite_none_right_eq_some, Option.some.injEq] at hs
    obtain ⟨⟨hset, hnone, -⟩, rfl⟩ := hs
    exact .post (.table hset hnone)
  | bufferptrDone =>
    obtain ⟨q, hq, rfl⟩ := Option.map_eq_some_iff.mp hs
    exact .down hq
  | doRead t =>
    simp only [next, Option.ite_none_right_eq_some, Option.some.injEq] at hs
    obtain ⟨hidle, rfl⟩ := hs
    exact .post (.read hidle)
  | doWrite t =>
    simp only [next, Option.ite_none_right_eq_some, Option.some.injEq] at hs
    obtain ⟨hidle, rfl⟩ := hs
    exact .post (.write hidle)
  | takeSlot t =>
    simp only [next, Option.ite_none_right_eq_some, Option.some.injEq] at hs
    obtain ⟨-, rfl⟩ := hs
    exact .keep
  | universalSend t =>
    obtain ⟨slot, hslot, rfl⟩ := Option.map_eq_some_iff.mp hs
    simp only
    split
    · next hsig => exact .post (.send hslot hsig)
    · exact .keep
  | complete =>
    obtain ⟨q, hq, rfl⟩ := Option.map_eq_some_iff.mp hs
    exact .complete hq
  | down t =>
    obtain ⟨x, -, hs⟩ := Option.bind_eq_some_iff.mp hs
    obtain ⟨q, hq, rfl⟩ := Option.map_eq_some_iff.mp hs
    exact .down hq

omit [DecidableEq T] in
/-- Before the setup is done nobody waits at a semaphore but the thread that does it. -/
theorem Base.unwaited (h : Base s) (hset : s.setup ≠ .ready) (hnone : s.queue.waiting none = none)
    (k : Sem T) : Unwaited s.queue k := by
  intro u i hu
  cases u with
  | none => exact absurd (hnone.symm.trans hu) (by simp)
  | some t => exact absurd (((h.early hset) t).2.symm.trans hu) (by simp)

theorem prepared_waiting : (prepared q k).waiting = q.waiting := by cases k <;> rfl

theorem prepared_posted : (prepared q k).posted = q.posted := by cases k <;> rfl

theorem prepared_delivered : (prepared q k).delivered = q.delivered := by cases k <;> rfl

theorem prepared_verbAck : (prepared q k).sem .verbAck = q.sem .verbAck := by
  cases k with
  | verbAck | read => rfl
  | write t =>
    have hne : (Sem.verbAck : Sem T) ≠ .write t := by simp
    exact Function.update_of_ne hne 0 q.sem

/-- **A semaphore stays at one thread** if no read is posted while another one is out. -/
theorem Effect.sole (heff : Effect s a q) (h : Base s) (hk : k ≠ .verbAck)
    (hsole : Completions.Sole k s.queue)
    (hread : ∀ t, a = .doRead t → s.idle t → k = .read → Unwaited s.queue k) :
    Completions.Sole k q := by
  cases heff with
  | keep => exact hsole
  | info => exact hsole.issue hk.symm
  | complete hq => exact hsole.complete hq
  | down hq => exact hsole.down hq
  | post hpost =>
    cases hpost with
    | table hset hnone =>
      exact hsole.post hnone fun _ => h.unwaited (by rw [hset]; simp) hnone k
    | read hidle => exact hsole.post hidle.2.2 fun hc => hread _ rfl hidle hc.symm
    | @write t hidle =>
      -- the semaphore is that of the thread, which is in no call
      have hown : .write t = k → Unwaited s.queue k := by
        rintro rfl u i hu
        obtain rfl := h.owner u t i hu
        exact absurd (hidle.2.2.symm.trans hu) (by simp)
      exact (hsole.reset hown).post hidle.2.2 hown
    | send hslot _ => exact hsole.post (h.busy _ _ hslot) fun hc => absurd hc.symm hk

/-- A thread waits because it did, or because the step has posted a request for it. -/
theorem Effect.waiting_back (heff : Effect s a q) {u : Option T} {i : ℕ}
    (hu : q.waiting u = some (k, i)) :
    s.queue.waiting u = some (k, i) ∨ i = s.queue.posted.length ∧ Posts s a u k := by
  cases heff with
  | keep => exact Or.inl hu
  | info => exact Or.inl hu
  | post hpost =>
    rcases Completions.post_waiting_back hu with ⟨rfl, rfl, hi⟩ | hu
    · exact Or.inr ⟨by rw [hi, prepared_posted], hpost⟩
    · rw [prepared_waiting] at hu
      exact Or.inl hu
  | complete hq =>
    rw [(Completions.complete_waiting hq).1] at hu
    exact Or.inl hu
  | down hq =>
    rw [Completions.down_waiting hq] at hu
    split at hu
    · exact absurd hu (by simp)
    · exact Or.inl hu

/-- A `universal_send` has a slot because it had, or because it has taken one. -/
theorem slot_back (hs : s.next a = some s') {t : T} {n : ℕ} (ht : s'.slot t = some n) :
    s.slot t = some n ∧ a ≠ .universalSend t ∨
      a = .takeSlot t ∧ n = s.vslotusing ∧ s.idle t := by
  cases a with
  | takeSlot u =>
    simp only [next, Option.ite_none_right_eq_some, Option.some.injEq] at hs
    obtain ⟨hidle, rfl⟩ := hs
    simp only [Function.update_apply] at ht
    split at ht
    · next htu =>
      subst htu
      exact Or.inr ⟨rfl, (Option.some.inj ht).symm, hidle⟩
    · exact Or.inl ⟨ht, by simp⟩
  | universalSend u =>
    obtain ⟨slot, -, rfl⟩ := Option.map_eq_some_iff.mp hs
    simp only [Function.update_apply] at ht
    split at ht
    · exact absurd ht (by simp)
    · next htu => exact Or.inl ⟨ht, fun hc => htu (Step.universalSend.inj hc).symm⟩
  | sendBufferInfo | readBufferptr | doRead | doWrite =>
    simp only [next, Option.ite_none_right_eq_some, Option.some.injEq] at hs
    obtain ⟨-, rfl⟩ := hs
    exact Or.inl ⟨ht, by simp⟩
  | bufferptrDone | complete =>
    obtain ⟨q, -, rfl⟩ := Option.map_eq_some_iff.mp hs
    exact Or.inl ⟨ht, by simp⟩
  | down u =>
    obtain ⟨x, -, hs⟩ := Option.bind_eq_some_iff.mp hs
    obtain ⟨q, -, rfl⟩ := Option.map_eq_some_iff.mp hs
    exact Or.inl ⟨ht, by simp⟩

/-- The setup goes on in two steps. -/
theorem setup_cases (hs : s.next a = some s') : s'.setup = s.setup ∨
    (a = .sendBufferInfo ∧ s.setup = .connected ∧ s'.setup = .infoSent) ∨
      a = .bufferptrDone ∧ s'.setup = .ready ∧ s'.queue.waiting none = none ∧
        ∃ x ∈ s.queue.waiting none, 0 < s.queue.sem x.1 := by
  cases a with
  | sendBufferInfo =>
    simp only [next, Option.ite_none_right_eq_some, Option.some.injEq] at hs
    obtain ⟨hset, rfl⟩ := hs
    exact Or.inr (Or.inl ⟨rfl, hset, rfl⟩)
  | bufferptrDone =>
    obtain ⟨q, hq, rfl⟩ := Option.map_eq_some_iff.mp hs
    have hnone : q.waiting none = none := by rw [Completions.down_waiting hq, if_pos rfl]
    obtain ⟨k, i, hw, hsem, -⟩ := Completions.down_spec hq
    exact Or.inr (Or.inr ⟨rfl, rfl, hnone, (k, i), hw, hsem⟩)
  | readBufferptr | doRead | doWrite | takeSlot =>
    simp only [next, Option.ite_none_right_eq_some, Option.some.injEq] at hs
    obtain ⟨-, rfl⟩ := hs
    exact Or.inl rfl
  | universalSend | complete =>
    obtain ⟨q, -, rfl⟩ := Option.map_eq_some_iff.mp hs
    exact Or.inl rfl
  | down u =>
    obtain ⟨x, -, hs⟩ := Option.bind_eq_some_iff.mp hs
    obtain ⟨q, -, rfl⟩ := Option.map_eq_some_iff.mp hs
    exact Or.inl rfl

omit [DecidableEq T] in
theorem Base.init : Base (init : Connection T) where
  early := fun _ _ => ⟨rfl, rfl⟩
  settled := fun _ => rfl
  busy := fun _ _ h => absurd h (by simp [Connection.init])
  owner := fun _ _ _ h => absurd h (by simp [Connection.init, Completions.init])
  writes := fun _ => Completions.Sole.init

/-- Every step keeps who waits where.  A thread comes to wait only by a post of its own, for
which it was idle or had a slot. -/
theorem Base.step (h : Base s) (hs : s.next a = some s') : Base s' where
  early := by
    intro hset t
    -- the setup does not go back
    have hold : s.setup ≠ .ready := by
      rcases setup_cases hs with heq | ⟨-, hc, -⟩ | ⟨-, hc, -⟩
      · rw [← heq]
        exact hset
      · rw [hc]
        simp
      · exact absurd hc hset
    obtain ⟨hslot, hwait⟩ := h.early hold t
    refine ⟨Option.eq_none_iff_forall_ne_some.mpr fun n hn => ?_,
      Option.eq_none_iff_forall_ne_some.mpr fun ⟨k, i⟩ hx => ?_⟩
    · rcases slot_back hs hn with ⟨hc, -⟩ | ⟨-, -, hidle⟩
      · exact absurd (hc.symm.trans hslot) (by simp)
      · exact hold hidle.1
    · rcases (next_effect hs).waiting_back hx with hc | ⟨-, hpost⟩
      · exact absurd (hc.symm.trans hwait) (by simp)
      · cases hpost with
        | read hidle | write hidle => exact hold hidle.1
        | send hn _ => exact absurd (hn.symm.trans hslot) (by simp)
  settled := by
    intro hset
    refine Option.eq_none_iff_forall_ne_some.mpr fun ⟨k, i⟩ hx => ?_
    rcases setup_cases hs with heq | ⟨-, -, hc⟩ | ⟨-, -, hc, -⟩
    · rcases (next_effect hs).waiting_back hx with hc | ⟨-, hpost⟩
      · exact absurd (hc.symm.trans (h.settled (heq ▸ hset))) (by simp)
      · cases hpost with
        | table hsent _ => exact hset (heq.trans hsent)
    · exact hset hc
    · exact absurd (hx.symm.trans hc) (by simp)
  busy := by
    intro t n hn
    -- a thread with a slot has not posted with it yet
    refine Option.eq_none_iff_forall_ne_some.mpr fun ⟨k, i⟩ hx => ?_
    have hold : s.queue.waiting (some t) = none := by
      rcases slot_back hs hn with ⟨hc, -⟩ | ⟨-, -, hidle⟩
      · exact h.busy t n hc
      · exact hidle.2.2
    rcases (next_effect hs).waiting_back hx with hc | ⟨-, hpost⟩
    · exact absurd (hc.symm.trans hold) (by simp)
    · rcases slot_back hs hn with ⟨hslot, hne⟩ | ⟨rfl, -, -⟩
      · cases hpost with
        | read hidle | write hidle => exact absurd (hslot.symm.trans hidle.2.1) (by simp)
        | send _ _ => exact hne rfl
      · cases hpost
  owner := by
    intro u t i hu
    rcases (next_effect hs).waiting_back hu with hc | ⟨-, hpost⟩
    · exact h.owner u t i hc
    · cases hpost with
      | write _ => rfl
  writes := fun t => (next_effect hs).sole h (by simp) (h.writes t) fun _ _ _ hc =>
    absurd hc (by simp)

/-! ### What runs of lone requests keep -/

/-- What holds while every read is alone and no signaled slot is taken: the token that the
setup has left is still there. -/
structure Lone (s : Connection T) : Prop where
  base : Base s
  read : Completions.Sole .read s.queue
  noAck : Unwaited s.queue .verbAck
  slot : ∀ t n, s.slot t = some n → ¬ signaled n
  start : s.setup = .connected →
    s.vslotusing = 0 ∧ s.queue.posted = [] ∧ s.queue.delivered = 0
  first : s.setup ≠ .connected → s.queue.posted[0]? = some .verbAck
  table : ∀ k i, s.queue.waiting none = some (k, i) → k = .read ∧ 0 < i
  token : 0 < s.queue.delivered → 0 < s.queue.sem .verbAck
  ready : s.setup = .ready → 0 < s.queue.delivered

/-- Requests are added and completed, and nobody takes a token of the sends. -/
theorem Effect.mono (heff : Effect s a q) (hno : Unwaited s.queue .verbAck) :
    (∀ (j : ℕ) x, s.queue.posted[j]? = some x → q.posted[j]? = some x) ∧
      s.queue.sem .verbAck ≤ q.sem .verbAck ∧
      (q.delivered = s.queue.delivered ∨ a = .complete ∧
        q.delivered = s.queue.delivered + 1) := by
  cases heff with
  | keep => exact ⟨fun _ _ hx => hx, Nat.le_refl _, Or.inl rfl⟩
  | info => exact ⟨fun _ _ hx => Completions.Sole.issue_posted hx, Nat.le_refl _, Or.inl rfl⟩
  | post _ =>
    refine ⟨fun _ _ hx => Completions.Sole.issue_posted ?_, Nat.le_of_eq prepared_verbAck.symm,
      Or.inl prepared_delivered⟩
    rw [prepared_posted]
    exact hx
  | complete hq =>
    obtain ⟨x, -, hq⟩ := Option.map_eq_some_iff.mp hq
    rw [← hq]
    refine ⟨fun _ _ hx => hx, ?_, Or.inr ⟨rfl, rfl⟩⟩
    simp only [Function.update_apply]
    split
    · next hk =>
      rw [hk]
      omega
    · exact Nat.le_refl _
  | @down _ u _ hq =>
    obtain ⟨x, i, hw, -, hq⟩ := Completions.down_spec hq
    have hne : Sem.verbAck ≠ x := by
      rintro rfl
      exact hno u i hw
    rw [hq]
    exact ⟨fun _ _ hx => hx, Nat.le_of_eq (Function.update_of_ne hne ..).symm, Or.inl rfl⟩

/-- A connection starts with the send of its buffer info. -/
theorem Lone.eq_sendBufferInfo (h : Lone s) (hset : s.setup = .connected)
    (hs : s.next a = some s') : a = .sendBufferInfo := by
  obtain ⟨-, hposted, hdel⟩ := h.start hset
  have hearly := h.base.early (by rw [hset]; simp)
  have hnone := h.base.settled (by rw [hset]; simp)
  cases a with
  | sendBufferInfo => rfl
  | readBufferptr | doRead | doWrite | takeSlot =>
    simp only [next, Option.ite_none_right_eq_some, idle, hset] at hs
    exact absurd hs.1.1 (by simp)
  | bufferptrDone => simp [next, Completions.down, hnone] at hs
  | universalSend t => simp [next, (hearly t).1] at hs
  | complete => simp [next, Completions.complete, hposted] at hs
  | down t => simp [next, (hearly t).2] at hs

omit [DecidableEq T] in
theorem Lone.init : Lone (init : Connection T) where
  base := Base.init
  read := Completions.Sole.init
  noAck := fun _ _ h => absurd h (by simp [Connection.init, Completions.init])
  slot := fun _ _ h => absurd h (by simp [Connection.init])
  start := fun _ => ⟨rfl, rfl, rfl⟩
  first := fun h => absurd rfl h
  table := fun _ _ h => absurd h (by simp [Connection.init, Completions.init])
  token := fun h => absurd h (Nat.lt_irrefl 0)
  ready := fun h => absurd h (by simp [Connection.init])

omit [DecidableEq T] in
/-- While no read is out nobody waits at `sem_read`. -/
theorem Lone.unwaited_read (h : Lone s) {t : T} (hok : s.Alone (.doRead t))
    (hready : s.setup = .ready) : Unwaited s.queue .read := by
  intro u i hu
  cases u with
  | none => exact absurd ((h.base.settled (by rw [hready]; simp)).symm.trans hu) (by simp)
  | some u => exact hok u (.read, i) hu rfl

theorem Lone.step (h : Lone s) (hok : s.Alone a) (hs : s.next a = some s') : Lone s' := by
  obtain ⟨hposted, hsem, hdel⟩ := (next_effect hs).mono h.noAck
  have hfirst : s'.setup ≠ .connected → s'.queue.posted[0]? = some .verbAck := by
    intro hset
    by_cases hold : s.setup = .connected
    · obtain rfl := h.eq_sendBufferInfo hold hs
      obtain ⟨hv, hp, -⟩ := h.start hold
      simp only [next, Option.ite_none_right_eq_some, Option.some.injEq] at hs
      obtain ⟨-, rfl⟩ := hs
      have hsig : signaled s.vslotusing := by rw [hv]; decide
      simp [if_pos hsig, Completions.issue, hp]
    · exact hposted 0 _ (h.first hold)
  refine ⟨h.base.step hs, ?_, ?_, ?_, ?_, hfirst, ?_, ?_, ?_⟩
  · apply (next_effect hs).sole h.base (by simp) h.read
    rintro t rfl hidle -
    exact h.unwaited_read hok hidle.1
  · intro u i hu
    rcases (next_effect hs).waiting_back hu with hc | ⟨-, hpost⟩
    · exact h.noAck u i hc
    · cases hpost with
      | send hslot hsig => exact h.slot _ _ hslot hsig
  · intro t n hn
    rcases slot_back hs hn with ⟨hc, -⟩ | ⟨rfl, rfl, -⟩
    · exact h.slot t n hc
    · exact hok
  · intro hset
    exfalso
    rcases setup_cases hs with heq | ⟨-, -, hc⟩ | ⟨-, hc, -⟩
    · have hold : s.setup = .connected := by rw [← heq]; exact hset
      obtain rfl := h.eq_sendBufferInfo hold hs
      simp only [next, Option.ite_none_right_eq_some, Option.some.injEq] at hs
      rw [← hs.2] at hset
      exact absurd hset (by simp)
    · exact absurd (hset.symm.trans hc) (by simp)
    · exact absurd (hset.symm.trans hc) (by simp)
  · intro k i hu
    rcases (next_effect hs).waiting_back hu with hc | ⟨rfl, hpost⟩
    · exact h.table k i hc
    · cases hpost with
      | table hsent _ =>
        -- the send of the buffer info comes before the read of the table
        have hinfo := h.first (by rw [hsent]; simp)
        exact ⟨rfl, (List.getElem?_eq_some_iff.mp hinfo).1⟩
  · intro hpos
    rcases hdel with hsame | ⟨rfl, hsucc⟩
    · exact Nat.lt_of_lt_of_le (h.token (by rw [← hsame]; exact hpos)) hsem
    · rcases Nat.eq_zero_or_pos s.queue.delivered with hzero | hpos'
      · -- the first completion is that of the send
        obtain ⟨q, hq, rfl⟩ := Option.map_eq_some_iff.mp hs
        obtain ⟨k, hk, rfl⟩ := Option.map_eq_some_iff.mp hq
        have hset : s.setup ≠ .connected := by
          intro hc
          rw [(h.start hc).2.1] at hk
          exact absurd hk (by simp)
        rw [hzero, h.first hset] at hk
        obtain rfl := Option.some.inj hk
        simp
      · exact Nat.lt_of_lt_of_le (h.token hpos') hsem
  · intro hset
    have hold : 0 < s.queue.delivered := by
      rcases setup_cases hs with heq | ⟨-, -, hc⟩ | ⟨-, -, -, ⟨k, i⟩, hx, hsem⟩
      · exact h.ready (by rw [← heq]; exact hset)
      · exact absurd (hset.symm.trans hc) (by simp)
      · obtain ⟨rfl, -⟩ := h.table k i hx
        exact Nat.lt_of_le_of_lt (Nat.zero_le i) (h.read.own hx hsem)
    omega

/-- A call that returns has taken a token from the semaphore of its request. -/
theorem returns_back (hs : s.next a = some s') {r : Return T} (hr : r ∈ s'.returns) :
    r ∈ s.returns ∨ ∃ t i, s.queue.waiting (some t) = some (r.sem, i) ∧ 0 < s.queue.sem r.sem ∧
      r.own = decide (i < s.queue.delivered) := by
  cases a with
  | down t =>
    obtain ⟨⟨k, i⟩, hw, hs⟩ := Option.bind_eq_some_iff.mp hs
    obtain ⟨q, hq, rfl⟩ := Option.map_eq_some_iff.mp hs
    obtain ⟨k', i', hw', hsem, -⟩ := Completions.down_spec hq
    obtain ⟨rfl, rfl⟩ := Prod.mk.inj (Option.some.inj (hw.symm.trans hw'))
    rcases List.mem_append.mp hr with hr | hr
    · exact Or.inl hr
    · obtain rfl := List.mem_singleton.mp hr
      exact Or.inr ⟨t, i, hw, hsem, rfl⟩
  | sendBufferInfo | readBufferptr | doRead | doWrite | takeSlot =>
    simp only [next, Option.ite_none_right_eq_some, Option.some.injEq] at hs
    obtain ⟨-, rfl⟩ := hs
    exact Or.inl hr
  | universalSend | bufferptrDone | complete =>
    obtain ⟨q, -, rfl⟩ := Option.map_eq_some_iff.mp hs
    exact Or.inl hr

theorem reach_base {ok : Connection T → Step T → Prop} (h : Reach ok s) : Base s :=
  h.invariant (fun _ h0 => by rw [h0]; exact Base.init) fun _ _ _ _ ih _ hs => ih.step hs

theorem reach_lone (h : Reach Alone s) : Lone s :=
  h.invariant (fun _ h0 => by rw [h0]; exact Lone.init) fun _ _ _ _ ih hok hs => ih.step hok hs

/-- A `do_write` returns after its own write. -/
theorem reach_write (h : Reach Machine.free s) :
    ∀ r ∈ s.returns, ∀ t, r.sem = .write t → r.own = true := by
  refine h.invariant (I := fun s => ∀ r ∈ s.returns, ∀ t, r.sem = .write t → r.own = true) ?_ ?_
  · rintro _ rfl r hr
    exact absurd hr (by simp [init])
  · intro s a s' hreach ih _ hs r hr t ht
    rcases returns_back hs hr with hr | ⟨u, i, hw, hsem, hown⟩
    · exact ih r hr t ht
    · rw [ht] at hw hsem
      rw [hown]
      exact decide_eq_true (((reach_base hreach).writes t).own hw hsem)

/-- While every step is alone every call returns after its own transfer. -/
theorem reach_alone (h : Reach Alone s) : Own s := by
  refine h.invariant ?_ ?_
  · rintro _ rfl r hr
    exact absurd hr (by simp [init])
  · intro s a s' hreach ih _ hs r hr
    have hlone := reach_lone hreach
    rcases returns_back hs hr with hr | ⟨u, i, hw, hsem, hown⟩
    · exact ih r hr
    · rw [hown]
      apply decide_eq_true
      rcases hk : r.sem with _ | _ | t <;> rw [hk] at hw hsem
      · exact absurd hw (hlone.noAck _ _)
      · exact hlone.read.own hw hsem
      · exact (hlone.base.writes t).own hw hsem

/-! ### Steps that are not alone -/

theorem exec_complete (n : ℕ) (as : List (Step T)) : ∀ (s : Connection T) {q},
    s.queue.deliver n = some q → Machine.exec Machine.free next s (.replicate n .complete ++ as) =
      Machine.exec Machine.free next { s with queue := q } as := by
  induction n with
  | zero =>
    intro s q hq
    obtain rfl := Option.some.inj hq
    rfl
  | succ n ih =>
    intro s q hq
    obtain ⟨q₁, hq₁, hq⟩ := Option.bind_eq_some_iff.mp hq
    have hs : s.next .complete = some { s with queue := q₁ } := by rw [next, hq₁]; rfl
    rw [← ih { s with queue := q₁ } hq]
    exact Machine.exec_cons trivial hs _

/-- A thread returns too early if its semaphore has a token, or gets one from a request
posted before its own. -/
theorem early_return (n : ℕ) {t : T} {j : ℕ} (hw : s.queue.waiting (some t) = some (k, j))
    (hj : j < s.queue.posted.length) (hle : s.queue.delivered + n ≤ j)
    (htok : 0 < s.queue.sem k ∨ 0 < n ∧ s.queue.posted[s.queue.delivered + n - 1]? = some k) :
    ∃ as s₂, Machine.exec Machine.free next s as = some s₂ ∧ ¬ Own s₂ := by
  obtain ⟨q, hq, -, hwaiting, hdelivered, hmono, hlast⟩ :=
    Completions.deliver_spec n s.queue (by omega)
  have hsem : 0 < q.sem k := by
    rcases htok with hpos | ⟨hn, hk⟩
    · exact Nat.lt_of_lt_of_le hpos (hmono k)
    · exact hlast k hn hk
  have hqw : q.waiting (some t) = some (k, j) := by rw [hwaiting]; exact hw
  have hlate : ¬ j < q.delivered := by omega
  obtain ⟨q', hq'⟩ : ∃ q', q.down (some t) = some q' :=
    ⟨_, by rw [Completions.down, hqw]; exact if_pos hsem⟩
  refine ⟨.replicate n .complete ++ [.down t], { s with
    queue := q'
    returns := s.returns ++ [⟨k, decide (j < q.delivered)⟩] }, ?_, fun hown => ?_⟩
  · rw [exec_complete n _ s hq]
    simp [Machine.exec, next, hqw, hq', Machine.free]
  · have hret := hown ⟨k, decide (j < q.delivered)⟩ (by simp)
    exact hlate (of_decide_eq_true hret)

/-- After a step that is not alone a call can return too early. -/
theorem Lone.early_return (h : Lone s) (hok : ¬ s.Alone a) (hs : s.next a = some s') :
    ∃ as s₂, Machine.exec Machine.free next s' as = some s₂ ∧ ¬ Own s₂ := by
  cases a with
  | doRead t =>
    simp only [Alone, not_forall, not_not] at hok
    obtain ⟨u, ⟨k, i⟩, hu, hk⟩ := hok
    obtain rfl : k = .read := hk
    simp only [next, Option.ite_none_right_eq_some, Option.some.injEq] at hs
    obtain ⟨-, rfl⟩ := hs
    have hi := (List.getElem?_eq_some_iff.mp (h.read.posted hu)).1
    have hle := h.read.le
    -- the completion of the read that is out serves the new one
    have hdel : (s.queue.post (some t) .read).delivered = s.queue.delivered := rfl
    have hlen : (s.queue.post (some t) .read).posted.length = s.queue.posted.length + 1 :=
      List.length_append
    refine Connection.early_return (i + 1 - s.queue.delivered)
      ((Completions.post_waiting ..).trans (if_pos rfl)) ?_ ?_ ?_
    · rw [hlen]
      exact Nat.lt_succ_self _
    · rw [hdel]
      omega
    · rcases Nat.lt_or_ge i s.queue.delivered with hlt | hge
      · left
        change 0 < s.queue.sem .read
        rw [h.read.token hu, if_pos hlt]
        exact Nat.one_pos
      · right
        have hidx : s.queue.delivered + (i + 1 - s.queue.delivered) - 1 = i := by omega
        refine ⟨by omega, ?_⟩
        rw [hdel, hidx]
        exact Completions.Sole.issue_posted (h.read.posted hu)
  | takeSlot t =>
    have hsig : signaled s.vslotusing := not_not.mp hok
    simp only [next, Option.ite_none_right_eq_some, Option.some.injEq] at hs
    obtain ⟨⟨hready, -, -⟩, rfl⟩ := hs
    have hle := h.read.le
    -- the token that the setup has left serves the send
    obtain ⟨as, s₂, hexec, hown⟩ := Connection.early_return 0 (t := t)
      (s := { s with
        vslotusing := (s.vslotusing + 1) % verbSendSlot
        slot := Function.update (Function.update s.slot t (some s.vslotusing)) t none
        queue := s.queue.post (some t) .verbAck })
      ((Completions.post_waiting ..).trans (if_pos rfl))
      (by simp [Completions.post, Completions.issue]) hle
      (Or.inl (h.token (h.ready hready)))
    refine ⟨.universalSend t :: as, s₂, ?_, hown⟩
    rw [← hexec]
    refine Machine.exec_cons trivial ?_ as
    simp [next, hsig]
  | sendBufferInfo | readBufferptr | bufferptrDone | doWrite | universalSend | complete | down =>
    exact absurd trivial hok

end Steps

/-- **In every run a `do_write` returns after its own write.  While every step is alone
every call returns after its own transfer, and after any other step a call can return too
early.** -/
theorem reach_own (T : Type) [DecidableEq T] :
    (∀ s : Connection T, Reach Machine.free s → ∀ r ∈ s.returns, ∀ t, r.sem = .write t →
      r.own = true) ∧
    (∀ s : Connection T, Reach Alone s → Own s) ∧
    ∀ s : Connection T, Reach Alone s → ∀ a s', s.next a = some s' → ¬ s.Alone a →
      ∃ as s₂, Machine.exec Machine.free next s' as = some s₂ ∧ ¬ Own s₂ :=
  ⟨fun _ h => reach_write h, fun _ h => reach_alone h,
    fun _ h _ _ hs hok => (reach_lone h).early_return hok hs⟩

/-- A read after the other, a write beside it, and a send in a slot that is not signaled. -/
theorem reach_own_turns : ∃ s : Connection Bool, Reach Alone s ∧
    s.returns.map Return.sem = [.read, .write false, .read] ∧ Own s := by
  obtain ⟨s, hs, hret⟩ := Machine.exists_reach_of_exec init Alone next
    (fun s : Connection Bool => s.returns.map Return.sem = [.read, .write false, .read])
    [.sendBufferInfo, .readBufferptr, .complete, .complete, .bufferptrDone, .doRead true,
      .doWrite false, .complete, .down true, .takeSlot true, .complete, .universalSend true,
      .down false, .doRead false, .complete, .down false] (by decide)
  exact ⟨s, hs, hret, (reach_own Bool).2.1 s hs⟩

/-- **A read returns when another one has completed.** -/
theorem not_own : ¬ ∀ s : Connection Bool, Reach Machine.free s → Own s := by
  intro hall
  obtain ⟨s, hs, hret⟩ := Machine.exists_reach_of_exec init Machine.free next
    (fun s : Connection Bool => s.returns = [⟨.read, false⟩])
    [.sendBufferInfo, .readBufferptr, .complete, .complete, .bufferptrDone, .doRead false,
      .doRead true, .complete, .down true] (by decide)
  have hown := hall s hs ⟨.read, false⟩ (by simp [hret])
  exact absurd hown (by simp)

end Connection
end Comex
