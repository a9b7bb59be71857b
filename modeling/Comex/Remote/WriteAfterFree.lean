import Comex.Remote.Fifo
import Comex.Remote.Node

/-!
# Remote writes and freed pages

The threads of a node swap pages out and in, in atomic steps.  A page leaves the
node's hands when `COMEX_free_to_remote` is called for it, and comes back when
`COMEX_freelist_getpage` hands it out again; a `PAGE_WRTE` sent in between writes
to memory that may belong to another node by then.  Whether one is sent depends
on what still waits in the ring when the page is freed.

## Main definitions

* `Event`, `NoWriteAfterFree` — what is observed of a run.
* `Traffic`, `step` — the rings, free lists and batches of a node.
* `Settled` — a step after which no slot holds a page that was freed.

## Main results

* `reach_noWriteAfterFree` — **while every step is settled, no freed page is written.**
* `write_after_free` — a page swapped in from the ring is written after it was freed.
-/

namespace Comex

/-- What the memory node of a page can tell. -/
inductive Event
  | handed (nodeID pageNO : ℤ)
  | freed (nodeID pageNO : ℤ)
  | wrote (nodeID first : ℤ) (size : ℕ)
  deriving DecidableEq, Repr

/-- Between the freeing of a page and a `PAGE_WRTE` that covers it the page was
handed out again. -/
def NoWriteAfterFree (trace : List Event) : Prop :=
  ∀ (before between after : List Event) (n p first : ℤ) (size : ℕ),
    trace = before ++ .freed n p :: between ++ .wrote n first size :: after →
    first ≤ p → p < first + size → .handed n p ∈ between

/-- The page was freed and not handed out since. -/
def Released (trace : List Event) (n p : ℤ) : Prop :=
  ∃ before after, trace = before ++ .freed n p :: after ∧ .handed n p ∉ after

section Trace

variable {trace : List Event} {e : Event} {n p : ℤ}

private theorem concat_split {α : Type*} {l before after : List α} {e x : α}
    (h : l ++ [e] = before ++ x :: after) :
    (after = [] ∧ x = e ∧ l = before) ∨
      ∃ after', after = after' ++ [e] ∧ l = before ++ x :: after' := by
  rcases List.eq_nil_or_concat after with rfl | ⟨after', y, rfl⟩
  · obtain ⟨h1, h2⟩ := List.append_inj' h rfl
    exact Or.inl ⟨rfl, (List.cons.inj h2).1.symm, h1⟩
  · have h' : l ++ [e] = (before ++ x :: after') ++ [y] := by
      rw [h]
      simp
    obtain ⟨h1, h2⟩ := List.append_inj' h' rfl
    obtain rfl : e = y := (List.cons.inj h2).1
    exact Or.inr ⟨after', by simp, h1⟩

theorem Released.of_concat (h : Released (trace ++ [e]) n p) :
    e = .freed n p ∨ Released trace n p ∧ e ≠ .handed n p := by
  obtain ⟨before, after, heq, hnot⟩ := h
  rcases concat_split heq with ⟨-, hx, -⟩ | ⟨after', rfl, hl⟩
  · exact Or.inl hx.symm
  · rw [List.mem_append, not_or] at hnot
    exact Or.inr ⟨⟨before, after', hl, hnot.1⟩, fun he => hnot.2 (by simp [he])⟩

theorem NoWriteAfterFree.nil : NoWriteAfterFree [] := by
  intro before between after n p first size h
  simp at h

/-- A trace stays safe unless a write covers a released page. -/
theorem NoWriteAfterFree.concat (h : NoWriteAfterFree trace)
    (hwrite : ∀ n p first size, e = .wrote n first size → first ≤ p → p < first + size →
      ¬ Released trace n p) : NoWriteAfterFree (trace ++ [e]) := by
  intro before between after n p first size heq h1 h2
  rcases concat_split heq with ⟨-, hx, hl⟩ | ⟨after', -, hl⟩
  · by_contra hnot
    exact hwrite n p first size hx.symm h1 h2 ⟨before, between, hl, hnot⟩
  · exact h before between after' n p first size hl h1 h2

end Trace

/-- The rings, free lists and batches of a node, by memory node. -/
structure Traffic where
  fifo : ℤ → Fifo
  group : ℤ → FreeGroup
  freeStruct : ℤ → FreeStruct
  /-- History: the pages that are swapped out, by memory node. -/
  swapped : ℤ → List ℤ
  /-- History: what happened, oldest first. -/
  trace : List Event

namespace Traffic

/-- An atomic step of some thread. -/
inductive Step
  | pageReceive (nodeID pageNO : ℤ) (groupSize : ℕ)
  | reserve (nodeID : ℤ)
  | fill (nodeID slot pageNO : ℤ)
  | flushBegin (nodeID : ℤ)
  | flushEnd (nodeID : ℤ)
  | swapIn (nodeID pageNO : ℤ)
  deriving DecidableEq, Repr

/-- The state after `COMEX_init_Remote`. -/
def init : Traffic where
  fifo _ := .init
  group _ := .init
  freeStruct _ := .clean
  swapped _ := []
  trace := []

/-- Assign to the ring of a node. -/
def setFifo (s : Traffic) (n : ℤ) (f : Fifo) : Traffic :=
  { s with fifo := Function.update s.fifo n f }

/-- One step, if it is enabled.  A swap-in reads the page from the ring, the read-in
cache or the memory node, which leaves the ring as it is, and then calls
`COMEX_free_to_remote`. -/
def step (cfg : Config) (s : Traffic) : Step → Option Traffic
  | .pageReceive n p k =>
    some { s with
      group := Function.update s.group n ((s.group n).pageReceive cfg.refill p k) }
  | .reserve n =>
    if 0 < (s.group n).totalPage then
      (s.group n).freelistGetpage.bind fun (p, g) =>
        ((s.fifo n).reserve cfg.totalWriteOut p).map fun f =>
          { s.setFifo n f with
            group := Function.update s.group n g
            trace := s.trace ++ [.handed n p] }
    else none
  | .fill n slot p =>
    ((s.fifo n).fill n slot p).map fun f =>
      { s.setFifo n f with swapped := Function.update s.swapped n (p :: s.swapped n) }
  | .flushBegin n =>
    ((s.fifo n).flushBegin cfg.totalWriteOut n).map fun f =>
      { s.setFifo n f with
        trace := s.trace ++ f.inflight.toList.map fun m => .wrote n m.remotePage m.size }
  | .flushEnd n => (s.fifo n).flushEnd.map fun f => s.setFifo n f
  | .swapIn n p =>
    if p ∈ s.swapped n then
      some { s with
        freeStruct := Function.update s.freeStruct n ((s.freeStruct n).freeToRemote p).2
        swapped := Function.update s.swapped n ((s.swapped n).erase p)
        trace := s.trace ++ [.freed n p] }
    else none

/-- A step after which no slot holds a page that was freed, and no `PAGE_WRTE` covers
other pages than those of its slots:

* a page that is swapped in is in no reserved or filled slot of its node's ring;
* the pages of a run that is flushed are consecutive, not only modulo 1024. -/
def Settled (cfg : Config) (s : Traffic) : Step → Prop
  | .swapIn n p => (∀ i : ℕ, i < cfg.totalWriteOut →
      ((s.fifo n).ring.desc i).status = .filled → ((s.fifo n).ring.desc i).pageNO ≠ p) ∧
      ∀ x ∈ (s.fifo n).copying, x.2 ≠ p
  | .flushBegin n => (s.fifo n).ring.Consecutive cfg.totalWriteOut
  | _ => True

instance (cfg : Config) (s : Traffic) : (a : Step) → Decidable (s.Settled cfg a)
  | .swapIn n p => inferInstanceAs (Decidable ((∀ i : ℕ, i < cfg.totalWriteOut →
      ((s.fifo n).ring.desc i).status = .filled → ((s.fifo n).ring.desc i).pageNO ≠ p) ∧
      ∀ x ∈ (s.fifo n).copying, x.2 ≠ p))
  | .flushBegin n => inferInstanceAs (Decidable ((s.fifo n).ring.Consecutive cfg.totalWriteOut))
  | .pageReceive _ _ _ | .reserve _ | .fill _ _ _ | .flushEnd _ =>
    inferInstanceAs (Decidable True)

/-- The rings are FIFOs, no held slot has a released page, and the trace is safe. -/
structure Inv (cfg : Config) (s : Traffic) : Prop where
  fifo : ∀ n, (s.fifo n).Inv cfg.totalWriteOut
  held : ∀ n p, Released s.trace n p → ∀ (j : ℕ) x, (s.fifo n).carried.length ≤ j →
    (s.fifo n).reserved[j]? = some x → x.2 ≠ p
  safe : NoWriteAfterFree s.trace

namespace Inv

variable {cfg : Config} {s s' : Traffic} {n p : ℤ}

theorem init : Inv cfg init where
  fifo := fun _ => Fifo.Inv.init
  held := fun n p ⟨before, after, h, _⟩ => by simp [Traffic.init] at h
  safe := NoWriteAfterFree.nil

/-- The ring of one node steps and the trace stays; what is held has been held before. -/
theorem setFifo (h : Inv cfg s) {f : Fifo} (hf : f.Inv cfg.totalWriteOut)
    (hres : f.reserved = (s.fifo n).reserved)
    (hcar : (s.fifo n).carried.length ≤ f.carried.length) : Inv cfg (s.setFifo n f) where
  fifo := by
    intro m
    simp only [Traffic.setFifo, Function.update_apply]
    split
    · exact hf
    · exact h.fifo m
  held := by
    intro m q hq j x hj hx
    simp only [Traffic.setFifo, Function.update_apply] at hj hx
    split at hx
    · next hm =>
      rw [if_pos hm] at hj
      subst hm
      rw [hres] at hx
      exact h.held m q hq j x (by omega) hx
    · next hm =>
      rw [if_neg hm] at hj
      exact h.held m q hq j x hj hx
  safe := h.safe

theorem pageReceive (h : Inv cfg s) {k : ℕ} (hs : s.step cfg (.pageReceive n p k) = some s') :
    Inv cfg s' := by
  rw [← Option.some.inj hs]
  exact ⟨h.fifo, h.held, h.safe⟩

/-- The page handed out is the only one that joins what is held. -/
theorem reserve (h : Inv cfg s) (hpos : 0 < cfg.totalWriteOut) (hshort : cfg.totalWriteOut ≤ 32767)
    (hs : s.step cfg (.reserve n) = some s') : Inv cfg s' := by
  simp only [Traffic.step] at hs
  split at hs
  swap
  · exact absurd hs (by simp)
  obtain ⟨⟨p, g⟩, -, hs⟩ := Option.bind_eq_some_iff.mp hs
  obtain ⟨f, hf, rfl⟩ := Option.map_eq_some_iff.mp hs
  have hinv := (h.fifo n).reserve hpos hshort hf
  have hfields : f.carried = (s.fifo n).carried ∧
      f.reserved = (s.fifo n).reserved ++ [((s.fifo n).ring.tail, p)] := by
    obtain ⟨-, rfl⟩ := Fifo.reserve_eq hf
    exact ⟨rfl, rfl⟩
  refine ⟨fun m => ?_, fun m q hq j x hj hx => ?_, h.safe.concat fun m q first size he => ?_⟩
  · simp only [Traffic.setFifo, Function.update_apply]
    split
    · exact hinv
    · exact h.fifo m
  · -- a page that is given back has not been handed out by this step
    rcases hq.of_concat with he | ⟨hold, hne⟩
    · exact absurd he (by simp)
    · simp only [Traffic.setFifo, Function.update_apply] at hj hx
      split at hx
      · next hm =>
        subst hm
        rw [if_pos rfl, hfields.1] at hj
        rw [hfields.2] at hx
        rcases Fifo.getElem?_concat hx with hx | ⟨-, rfl⟩
        · exact h.held m q hold j x hj hx
        · exact fun hpq => hne (congrArg (Event.handed m) hpq)
      · next hm =>
        rw [if_neg hm] at hj
        exact h.held m q hold j x hj hx
  · exact absurd he (by simp)

theorem fill (h : Inv cfg s) {slot : ℤ} (hs : s.step cfg (.fill n slot p) = some s') :
    Inv cfg s' := by
  obtain ⟨f, hf, rfl⟩ := Option.map_eq_some_iff.mp hs
  have hinv := (h.fifo n).fill hf
  obtain ⟨-, rfl⟩ := Fifo.fill_eq hf
  have h' := h.setFifo hinv rfl le_rfl
  exact ⟨h'.fifo, h'.held, h'.safe⟩

theorem flushEnd (h : Inv cfg s) (hs : s.step cfg (.flushEnd n) = some s') : Inv cfg s' := by
  obtain ⟨f, hf, rfl⟩ := Option.map_eq_some_iff.mp hs
  have hinv := (h.fifo n).flushEnd hf
  obtain ⟨m, -, rfl⟩ := Option.map_eq_some_iff.mp hf
  exact h.setFifo hinv rfl le_rfl

/-- A flush writes to the pages of the slots it takes, and to no others. -/
theorem flushBegin (h : Inv cfg s) (hshort : cfg.totalWriteOut ≤ 32767)
    (hclean : s.Settled cfg (.flushBegin n)) (hs : s.step cfg (.flushBegin n) = some s') :
    Inv cfg s' := by
  obtain ⟨f, hf, rfl⟩ := Option.map_eq_some_iff.mp hs
  have hinv := (h.fifo n).flushBegin hshort hf
  obtain ⟨hidle, rfl | ⟨count, hcount, hrun, rfl⟩⟩ := Fifo.flushBegin_cases hf
  · -- the head slot is not filled: nothing is written
    have h' := h.setFifo (n := n) hinv rfl le_rfl
    refine ⟨h'.fifo, ?_, ?_⟩ <;> simp only [hidle, Option.toList_none, List.map_nil,
      List.append_nil]
    · exact h'.held
    · exact h'.safe
  · have h' := h.setFifo (n := n) hinv rfl
      (by rw [Fifo.length_carried_afterFlush]; exact Nat.le_add_right _ _)
    obtain ⟨-, hres⟩ := (h.fifo n).run_reserved hidle hrun
    refine ⟨h'.fifo, fun m q hq => ?_, h.safe.concat fun m q first size he h1 h2 hrel => ?_⟩
    · rcases hq.of_concat with he | ⟨hq, -⟩
      · exact absurd he (by simp)
      · exact h'.held m q hq
    · -- the covered page is that of a slot of the run, which held it before
      obtain ⟨rfl, rfl, rfl⟩ : n = m ∧ ((s.fifo n).ring.desc (s.fifo n).ring.head).pageNO = first ∧
          count = size := by simpa [Fifo.wrte] using he
      obtain ⟨j, hj⟩ : ∃ j : ℕ, q = ((s.fifo n).ring.desc (s.fifo n).ring.head).pageNO + j :=
        ⟨(q - ((s.fifo n).ring.desc (s.fifo n).ring.head).pageNO).toNat, by omega⟩
      have hlt : j < count := by omega
      have hpage := hclean.pageNO_eq hrun j hlt
      apply h.held n q hrel _ _ (Nat.le_add_right _ j) (hres j hlt)
      rw [hpage, hj]

/-- A page that is freed while no slot has it is not held afterwards. -/
theorem swapIn (h : Inv cfg s) (hpos : 0 < cfg.totalWriteOut) (hclean : s.Settled cfg (.swapIn n p))
    (hs : s.step cfg (.swapIn n p) = some s') : Inv cfg s' := by
  simp only [Traffic.step] at hs
  split at hs
  swap
  · exact absurd hs (by simp)
  rw [← Option.some.inj hs]
  refine ⟨h.fifo, fun m q hq j x hj hx => ?_, h.safe.concat fun m q first size he => ?_⟩
  · rcases hq.of_concat with he | ⟨hq, -⟩
    · simp only [Event.freed.injEq] at he
      obtain ⟨rfl, rfl⟩ := he
      rcases (h.fifo n).holds j x hj hx with ⟨-, hcopy⟩ | ⟨hfilled, hpage⟩
      · exact hclean.2 x hcopy
      · have hslot := (h.fifo n).slot_eq j x hx
        have hlt := Nat.mod_lt j hpos
        rw [hslot] at hfilled hpage
        rw [← hpage]
        exact hclean.1 _ hlt hfilled
    · exact h.held m q hq j x hj hx
  · exact absurd he (by simp)

theorem step (h : Inv cfg s) (hpos : 0 < cfg.totalWriteOut) (hshort : cfg.totalWriteOut ≤ 32767)
    {a : Step} (hclean : s.Settled cfg a) (hs : s.step cfg a = some s') : Inv cfg s' := by
  cases a with
  | pageReceive n p k => exact h.pageReceive hs
  | reserve n => exact h.reserve hpos hshort hs
  | fill n slot p => exact h.fill hs
  | flushBegin n => exact h.flushBegin hshort hclean hs
  | flushEnd n => exact h.flushEnd hs
  | swapIn n p => exact h.swapIn hpos hclean hs

end Inv

/-- The states of a node whose steps meet a guard. -/
abbrev Reach (cfg : Config) (ok : Traffic → Step → Prop) (s : Traffic) : Prop :=
  Machine.Reach (.ofPartial init (step cfg)) ok s

/-- **No remote write after free**, in every run of settled steps: no `PAGE_WRTE` covers a page
that has been given back and has not been handed out again. -/
theorem reach_noWriteAfterFree {cfg : Config} (hpos : 0 < cfg.totalWriteOut)
    (hshort : cfg.totalWriteOut ≤ 32767) {s : Traffic} (h : Reach cfg (Settled cfg) s) :
    NoWriteAfterFree s.trace := by
  refine (h.invariant (I := Inv cfg) ?_ ?_).safe
  · rintro s rfl
    exact Inv.init
  · intro s a s' _ hinv hok hs
    exact hinv.step hpos hshort hok hs

/-- The pages of a block go out through a ring of two slots and are swapped in again, the block is
lent once more, and page 0 is handed out and written a second time. -/
theorem reach_noWriteAfterFree_again : ∃ s : Traffic,
    Reach smallConfig (Settled smallConfig) s ∧
      (Event.freed 0 0 ∈ s.trace ∧ s.trace.getLast? = some (.wrote 0 0 2)) ∧
      NoWriteAfterFree s.trace := by
  obtain ⟨s, hs, htrace⟩ := Machine.exists_reach_of_exec init (Settled smallConfig)
    (step smallConfig)
    (fun s => Event.freed 0 0 ∈ s.trace ∧ s.trace.getLast? = some (.wrote 0 0 2))
    (.pageReceive 0 0 5 ::
      ((List.range 16).flatMap fun i => [.reserve 0, .fill 0 0 (2 * i), .reserve 0,
        .fill 0 1 (2 * i + 1), .flushBegin 0, .flushEnd 0]) ++
      ((List.range 32).map fun i => .swapIn 0 i) ++
      [.pageReceive 0 0 5, .reserve 0, .fill 0 0 0, .reserve 0, .fill 0 1 1, .flushBegin 0])
    (by decide +kernel)
  exact ⟨s, hs, htrace, reach_noWriteAfterFree (by decide) (by decide) hs⟩

/-- **A freed page is written.** It is swapped in from the ring, where its slot stays
filled, and freed; the flush that makes room for the next page then writes it. -/
theorem write_after_free : ¬ ∀ s : Traffic,
    Reach smallConfig Machine.free s → NoWriteAfterFree s.trace := by
  intro hall
  obtain ⟨s, hs, htrace⟩ := Machine.exists_reach_of_exec init Machine.free
    (step smallConfig) (fun s => s.trace = [.handed 0 0, .handed 0 1, .freed 0 0, .wrote 0 0 2])
    [.pageReceive 0 0 5, .reserve 0, .fill 0 0 0, .reserve 0, .fill 0 1 1, .swapIn 0 0,
      .flushBegin 0] (by decide)
  have h := hall s hs [.handed 0 0, .handed 0 1] [] [] 0 0 0 2 htrace (by decide) (by decide)
  exact absurd h (by simp)

end Traffic
end Comex
