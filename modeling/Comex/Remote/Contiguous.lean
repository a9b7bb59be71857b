import Comex.Remote.WriteAfterFree

/-!
# What a PAGE_WRTE carries

`COMEX_flush_buff` takes neighbouring slots for one transfer as long as their page
numbers follow one another modulo 1024.  That keeps the transfer inside a chunk of
the memory node, in every run.  It puts each page in its own place only when no two
pages that follow one another modulo 1024 without being neighbours get into
neighbouring slots, and the blocks a node is lent decide about that.

## Main definitions

* `Fifo.OwnPages` — each slot of the transfer under way holds the page it is written to.
* `Traffic.Neighbourly` — a page that follows the one in the slot before is the next one.

## Main results

* `Traffic.reach_fifo_invariant` — the induction rule for a property of each ring.
* `Traffic.reach_carries` — every transfer stays inside a chunk of the memory node.
* `Traffic.reach_ownPages` — **while pages are neighbourly, each one is written to its
  own place.**
-/

namespace Comex

namespace WriteOut

/-- **A run does not cross a multiple of 1024 pages.** -/
theorem IsRun.inside {total count : ℕ} {desc : ℤ → BuffDesc} {head : ℤ}
    (h : IsRun total desc head count)
    (hpage : ∀ i : ℕ, i < count → 0 ≤ (desc (head + i)).pageNO) (hcount : 0 < count) :
    (desc head).pageNO % 1024 + count ≤ 1024 := by
  have hplace : ∀ i : ℕ, i < count →
      (desc (head + i)).pageNO % 1024 = (desc head).pageNO % 1024 + i := by
    intro i
    induction i with
    | zero => simp
    | succ i ih =>
      intro hi
      have hnext : head + ((i + 1 : ℕ) : ℤ) = head + i + 1 := by omega
      have hstep := (follows_iff (hpage i (by omega)) (hnext ▸ hpage (i + 1) hi)).mp
        (h.follows i hi)
      rw [hnext, hstep, ih (by omega)]
      omega
  have hlast := hplace (count - 1) (by omega)
  omega

end WriteOut

namespace Fifo

/-- What holds of the `PAGE_WRTE` of ring `nodeID` in every run. -/
structure Carries (total : ℕ) (nodeID : ℤ) (m : PageWrte) : Prop where
  local_eq : m.localPage = getWriteOutBuff total nodeID m.bufIDX
  slot : 0 ≤ m.bufIDX ∧ m.bufIDX + m.size ≤ total
  nonneg : 0 ≤ m.remotePage
  inside : m.remotePage % 1024 + m.size ≤ 1024

/-- A ring whose reservations are for page numbers, and what its flush has sent. -/
structure Lined (total : ℕ) (nodeID : ℤ) (s : Fifo) : Prop where
  inv : Inv total s
  page : ∀ x ∈ s.reserved, 0 ≤ x.2
  carries : ∀ m, s.inflight = some m → Carries total nodeID m

/-- Each slot of the transfer under way is marked and holds the page it is written to. -/
def OwnPages (s : Fifo) : Prop :=
  ∀ m, s.inflight = some m → ∀ i : ℕ, i < m.size →
    (s.ring.desc (m.bufIDX + i)).status = .flushing ∧
      (s.ring.desc (m.bufIDX + i)).pageNO = m.remotePage + i

/-- Pages in neighbouring slots that follow one another modulo 1024 are neighbours. -/
structure Adjacent (s : Fifo) : Prop where
  next : ∀ (j : ℕ) x y, s.carried.length ≤ j → s.reserved[j]? = some x →
    s.reserved[j + 1]? = some y → y.1 ≠ 0 → WriteOut.Follows x.2 y.2 → y.2 = x.2 + 1
  own : OwnPages s

/-- The page fits to the slot at the tail: if the page reserved before it still waits
in the slot before, and the two follow one another modulo 1024, they are neighbours. -/
def Joins (s : Fifo) (pageNO : ℤ) : Prop :=
  s.ring.tail ≠ 0 → s.carried.length < s.reserved.length →
    ∀ x ∈ s.reserved.getLast?, WriteOut.Follows x.2 pageNO → pageNO = x.2 + 1

instance (s : Fifo) (pageNO : ℤ) : Decidable (s.Joins pageNO) :=
  inferInstanceAs (Decidable (s.ring.tail ≠ 0 → s.carried.length < s.reserved.length →
    ∀ x ∈ s.reserved.getLast?, WriteOut.Follows x.2 pageNO → pageNO = x.2 + 1))

section Steps

variable {total : ℕ} {nodeID : ℤ} {s s' : Fifo}

namespace Lined

theorem init : Lined total nodeID init :=
  ⟨.init, fun x hx => by simp [Fifo.init] at hx, fun m hm => by simp [Fifo.init] at hm⟩

theorem reserve (h : Lined total nodeID s) (hpos : 0 < total) (htotal : total ≤ 32767)
    {pageNO : ℤ} (hp : 0 ≤ pageNO) (hs : s.reserve total pageNO = some s') :
    Lined total nodeID s' := by
  refine ⟨h.inv.reserve hpos htotal hs, fun x hx => ?_, ?_⟩
  · obtain ⟨-, rfl⟩ := reserve_eq hs
    rcases List.mem_append.mp hx with hx | hx
    · exact h.page x hx
    · rw [List.mem_singleton.mp hx]
      exact hp
  · obtain ⟨-, rfl⟩ := reserve_eq hs
    exact h.carries

theorem fill (h : Lined total nodeID s) {slot pageNO : ℤ}
    (hs : s.fill nodeID slot pageNO = some s') : Lined total nodeID s' := by
  have hinv := h.inv.fill hs
  obtain ⟨-, rfl⟩ := fill_eq hs
  exact ⟨hinv, h.page, h.carries⟩

theorem flushBegin (h : Lined total nodeID s) (htotal : total ≤ 32767)
    (hs : s.flushBegin total nodeID = some s') : Lined total nodeID s' := by
  have hinv := h.inv.flushBegin htotal hs
  obtain ⟨hidle, rfl | ⟨count, hcount, hrun, rfl⟩⟩ := flushBegin_cases hs
  · exact h
  refine ⟨hinv, h.page, fun m hm => ?_⟩
  obtain rfl : s.wrte total nodeID count = m := Option.some.inj hm
  obtain ⟨-, hres⟩ := h.inv.run_reserved hidle hrun
  have hpage : ∀ i : ℕ, i < count → 0 ≤ (s.ring.desc (s.ring.head + i)).pageNO := fun i hi =>
    h.page _ (List.mem_of_getElem? (hres i hi))
  have hfirst := hpage 0 hcount
  rw [Int.natCast_zero, Int.add_zero] at hfirst
  have hhead := h.inv.head_eq
  exact ⟨rfl, ⟨by change 0 ≤ s.ring.head; omega, hrun.in_range⟩, hfirst, hrun.inside hpage hcount⟩

theorem flushEnd (h : Lined total nodeID s) (hs : s.flushEnd = some s') :
    Lined total nodeID s' := by
  obtain ⟨hidle, hres, -⟩ := flushEnd_eq hs
  exact ⟨h.inv.flushEnd hs, by rw [hres]; exact h.page, fun m hm => by simp [hidle] at hm⟩

end Lined

namespace Adjacent

theorem init : Adjacent init :=
  ⟨fun j x y _ hx => by simp [Fifo.init] at hx, fun m hm => by simp [Fifo.init] at hm⟩

/-- A slot of the transfer under way keeps its descriptor when another slot changes. -/
theorem own_of_update (h : OwnPages s) (slot : ℤ) {d : BuffDesc}
    (hslot : (s.ring.desc slot).status ≠ .flushing) {f : Fifo}
    (hdesc : f.ring.desc = Function.update s.ring.desc slot d) (hfly : f.inflight = s.inflight) :
    OwnPages f := by
  intro m hm i hi
  rw [hfly] at hm
  obtain ⟨hst, hpg⟩ := h m hm i hi
  have hne : m.bufIDX + i ≠ slot := fun heq => hslot (heq ▸ hst)
  rw [hdesc, Function.update_of_ne hne]
  exact ⟨hst, hpg⟩

theorem reserve (h : Adjacent s) {pageNO : ℤ} (hjoin : s.Joins pageNO)
    (hs : s.reserve total pageNO = some s') : Adjacent s' := by
  obtain ⟨hfree, rfl⟩ := reserve_eq hs
  refine ⟨fun j x y hj hx hy hslot hfollows => ?_, ?_⟩
  · rcases getElem?_concat hy with hy | ⟨hlen, rfl⟩
    · have hlt := (List.getElem?_eq_some_iff.mp hy).1
      change (s.reserved ++ _)[j]? = some x at hx
      rw [List.getElem?_append_left (by omega)] at hx
      exact h.next j x y hj hx hy hslot hfollows
    · -- the page that is reserved now, and the one before it
      change (s.reserved ++ _)[j]? = some x at hx
      rw [List.getElem?_append_left (by omega)] at hx
      refine hjoin hslot (by change s.carried.length ≤ j at hj; omega) x ?_ hfollows
      have hj' : j = s.reserved.length - 1 := by omega
      rw [List.getLast?_eq_getElem?, ← hj', hx]
      rfl
  · refine own_of_update h.own s.ring.tail ?_ rfl rfl
    rw [hfree]
    decide

theorem fill (h : Adjacent s) (hl : Lined total nodeID s) {slot pageNO : ℤ}
    (hs : s.fill nodeID slot pageNO = some s') : Adjacent s' := by
  obtain ⟨hmem, rfl⟩ := fill_eq hs
  obtain ⟨j, -, -, hst⟩ := hl.inv.copying _ hmem
  refine ⟨h.next, own_of_update h.own slot ?_ rfl rfl⟩
  change (s.ring.desc slot).status = .reserved at hst
  rw [hst]
  decide

/-- The pages of the run that is taken are neighbours, one by one: slots of the run that follow
one another were reserved one after the other. -/
theorem flushBegin (h : Adjacent s) (hl : Lined total nodeID s)
    (hs : s.flushBegin total nodeID = some s') : Adjacent s' := by
  obtain ⟨hidle, rfl | ⟨count, hcount, hrun, rfl⟩⟩ := flushBegin_cases hs
  · exact h
  refine ⟨fun j x y hj hx hy hslot hfollows => ?_, fun m hm => ?_⟩
  · rw [length_carried_afterFlush] at hj
    exact h.next j x y (by omega) hx hy hslot hfollows
  obtain rfl : s.wrte total nodeID count = m := Option.some.inj hm
  obtain ⟨-, hres⟩ := hl.inv.run_reserved hidle hrun
  have hhead := hl.inv.head_eq
  have hpages : ∀ i : ℕ, i < count → (s.ring.desc (s.ring.head + i)).pageNO =
      (s.ring.desc s.ring.head).pageNO + i := by
    intro i
    induction i with
    | zero => simp
    | succ i ih =>
      -- the next slot of the run holds the next reservation
      intro hi
      have hcast : s.ring.head + ((i + 1 : ℕ) : ℤ) = s.ring.head + i + 1 := by omega
      have hpair := h.next (s.carried.length + i) _ _ (by omega) (hres i (by omega))
        (hres (i + 1) hi) (by simp only; omega)
      rw [hcast] at hpair ⊢
      simp only at hpair
      rw [hpair (hrun.follows i hi), ih (by omega)]
      omega
  intro i (hi : i < count)
  change (WriteOut.markFlushing _ _ _ _).status = _ ∧ (WriteOut.markFlushing _ _ _ _).pageNO = _
  rw [WriteOut.markFlushing_pageNO, WriteOut.markFlushing_status]
  refine ⟨if_pos ?_, hpages i hi⟩
  change s.ring.head ≤ s.ring.head + i ∧ s.ring.head + (i : ℤ) < s.ring.head + count
  omega

theorem flushEnd (h : Adjacent s) (hs : s.flushEnd = some s') : Adjacent s' := by
  obtain ⟨hidle, hres, hcar⟩ := flushEnd_eq hs
  refine ⟨?_, fun m hm => by simp [hidle] at hm⟩
  rw [hres, hcar]
  exact h.next

end Adjacent

end Steps

end Fifo

/-! ### Runs of the node -/

namespace Traffic

variable {cfg : Config} {s : Traffic}

/-- A page that is handed out is a page number. -/
theorem getpage_nonneg {g g' : FreeGroup} {p : ℤ} (h : g.Ok)
    (hget : g.freelistGetpage = some (p, g')) : 0 ≤ p := by
  unfold FreeGroup.freelistGetpage at hget
  cases hgroups : g.groups with
  | nil => simp [hgroups] at hget
  | cons x rest =>
    rw [hgroups, Option.some.injEq, Prod.mk.injEq] at hget
    rw [← hget.1]
    exact (h.group x (by simp [hgroups])).1

/-- What a step of the traffic does to a ring is a step on it, or nothing. -/
theorem step_fifo {cfg : Config} {s s' : Traffic} {a : Step} (hs : s.step cfg a = some s')
    (n : ℤ) : s'.fifo n = s.fifo n ∨
      ∃ b, (s.fifo n).next cfg.totalWriteOut n b = some (s'.fifo n) := by
  have hset : ∀ {k : ℤ} {f : Fifo} (b : Fifo.Step), (s.fifo k).next cfg.totalWriteOut k b = some f →
      (s.setFifo k f).fifo n = s.fifo n ∨
        ∃ b, (s.fifo n).next cfg.totalWriteOut n b = some ((s.setFifo k f).fifo n) := by
    intro k f b hf
    simp only [Traffic.setFifo, Function.update_apply]
    split
    · next hn =>
      subst hn
      exact .inr ⟨b, hf⟩
    · exact .inl rfl
  cases a with
  -- the steps of the free list and of a swap-in leave every ring
  | pageReceive k p order =>
    rw [← Option.some.inj hs]
    exact .inl rfl
  | reserve k =>
    obtain ⟨-, hs⟩ := Option.ite_none_right_eq_some.mp hs
    obtain ⟨⟨p, g⟩, -, hs⟩ := Option.bind_eq_some_iff.mp hs
    obtain ⟨f, hf, rfl⟩ := Option.map_eq_some_iff.mp hs
    exact hset (.reserve p) hf
  | fill k slot p =>
    obtain ⟨f, hf, rfl⟩ := Option.map_eq_some_iff.mp hs
    exact hset (.fill slot p) hf
  | flushBegin k =>
    obtain ⟨f, hf, rfl⟩ := Option.map_eq_some_iff.mp hs
    exact hset .flushBegin hf
  | flushEnd k =>
    obtain ⟨f, hf, rfl⟩ := Option.map_eq_some_iff.mp hs
    exact hset .flushEnd hf
  | swapIn k p =>
    obtain ⟨-, hs⟩ := Option.ite_none_right_eq_some.mp hs
    rw [← Option.some.inj hs]
    exact .inl rfl

/-- **The induction rule for a property of each ring**: it holds of the empty ring, and
the four steps on a ring keep it. -/
theorem reach_fifo_invariant {I : ℤ → Fifo → Prop} {ok : Traffic → Step → Prop}
    (h : Machine.Reach (.ofPartial init (step cfg)) ok s) (start : ∀ n, I n .init)
    (reserve : ∀ (s : Traffic) n p g f, ok s (.reserve n) → (s.group n).Ok →
      (s.group n).freelistGetpage = some (p, g) → I n (s.fifo n) →
      (s.fifo n).reserve cfg.totalWriteOut p = some f → I n f)
    (fill : ∀ n (r : Fifo) slot p f, I n r → r.fill n slot p = some f → I n f)
    (flushBegin : ∀ n (r f : Fifo), I n r → r.flushBegin cfg.totalWriteOut n = some f → I n f)
    (flushEnd : ∀ n (r f : Fifo), I n r → r.flushEnd = some f → I n f) :
    (∀ n, (s.group n).Ok) ∧ ∀ n, I n (s.fifo n) := by
  -- one ring steps, the others stay
  have hset : ∀ {s : Traffic} {n : ℤ} {f : Fifo}, (∀ n, I n (s.fifo n)) → I n f →
      ∀ m, I m ((s.setFifo n f).fifo m) := by
    intro s n f hI hf m
    simp only [Traffic.setFifo, Function.update_apply]
    split
    · next hm =>
      rw [hm]
      exact hf
    · exact hI m
  have hgroup : ∀ {s : Traffic} {n : ℤ} {g : FreeGroup}, (∀ n, (s.group n).Ok) → g.Ok →
      ∀ m, (Function.update s.group n g m).Ok := by
    intro s n g hok hg m
    rw [Function.update_apply]
    split
    · exact hg
    · exact hok m
  refine h.invariant (I := fun s => (∀ n, (s.group n).Ok) ∧ ∀ n, I n (s.fifo n)) ?_ ?_
  · rintro s rfl
    exact ⟨fun _ => FreeGroup.Ok.init, start⟩
  · intro s a s' _ hinv hguard hs
    obtain ⟨hok, hI⟩ := hinv
    cases a with
    | pageReceive n p k =>
      rw [← Option.some.inj hs]
      exact ⟨hgroup hok ((hok n).pageReceive cfg.refill p k).1, hI⟩
    | reserve n =>
      change (if _ then _ else _) = _ at hs
      split at hs
      · obtain ⟨⟨p, g⟩, hget, hs⟩ := Option.bind_eq_some_iff.mp hs
        obtain ⟨f, hf, rfl⟩ := Option.map_eq_some_iff.mp hs
        exact ⟨hgroup hok ((hok n).freelistGetpage hget).1,
          hset hI (reserve s n p g f hguard (hok n) hget (hI n) hf)⟩
      · exact absurd hs (by simp)
    | fill n slot p =>
      obtain ⟨f, hf, rfl⟩ := Option.map_eq_some_iff.mp hs
      exact ⟨hok, hset hI (fill n _ slot p f (hI n) hf)⟩
    | flushBegin n =>
      obtain ⟨f, hf, rfl⟩ := Option.map_eq_some_iff.mp hs
      exact ⟨hok, hset hI (flushBegin n _ f (hI n) hf)⟩
    | flushEnd n =>
      obtain ⟨f, hf, rfl⟩ := Option.map_eq_some_iff.mp hs
      exact ⟨hok, hset hI (flushEnd n _ f (hI n) hf)⟩
    | swapIn n p =>
      change (if _ then _ else _) = _ at hs
      split at hs
      · rw [← Option.some.inj hs]
        exact ⟨hok, hI⟩
      · exact absurd hs (by simp)

/-- **Every transfer comes from slots of its ring and stays inside a chunk of the
memory node**, in every run. -/
theorem reach_lined (hpos : 0 < cfg.totalWriteOut) (hshort : cfg.totalWriteOut ≤ 32767)
    {ok : Traffic → Step → Prop} (h : Machine.Reach (.ofPartial init (step cfg)) ok s) (n : ℤ) :
    (s.fifo n).Lined cfg.totalWriteOut n :=
  (reach_fifo_invariant (I := fun n f => f.Lined cfg.totalWriteOut n) h (fun _ => .init)
    (fun _ _ _ _ _ _ hok hget hI hf => hI.reserve hpos hshort (getpage_nonneg hok hget) hf)
    (fun _ _ _ _ _ hI hf => hI.fill hf) (fun _ _ _ hI hf => hI.flushBegin hshort hf)
    (fun _ _ _ hI hf => hI.flushEnd hf)).2 n

/-- A step that puts no two pages side by side that only seem to be neighbours: a page
that is handed out, if it follows modulo 1024 the page that still waits in the slot
before it, is the next one. -/
def Neighbourly (s : Traffic) : Step → Prop
  | .reserve n => ∀ x ∈ (s.group n).freelistGetpage, (s.fifo n).Joins x.1
  | _ => True

instance (s : Traffic) : (a : Step) → Decidable (s.Neighbourly a)
  | .reserve n =>
    inferInstanceAs (Decidable (∀ x ∈ (s.group n).freelistGetpage, (s.fifo n).Joins x.1))
  | .pageReceive _ _ _ | .fill _ _ _ | .flushBegin _ | .flushEnd _ | .swapIn _ _ =>
    inferInstanceAs (Decidable True)

/-- What a flush is for: the transfer under way takes each page from its slot to its own
place, and stays inside a chunk of the memory node. -/
structure Exact (cfg : Config) (n : ℤ) (f : Fifo) : Prop where
  own : f.OwnPages
  carries : ∀ m, f.inflight = some m → Fifo.Carries cfg.totalWriteOut n m

/-- **Every flush writes each page to its own place**, in every run of neighbourly steps.  Only
what is handed out is restricted: which pages wait side by side in the ring decides what one
`PAGE_WRTE` can cover. -/
theorem reach_ownPages (hpos : 0 < cfg.totalWriteOut) (hshort : cfg.totalWriteOut ≤ 32767)
    (h : Reach cfg Neighbourly s) (n : ℤ) : Exact cfg n (s.fifo n) := by
  have hboth := (reach_fifo_invariant
    (I := fun n f => f.Lined cfg.totalWriteOut n ∧ f.Adjacent) h (fun _ => ⟨.init, .init⟩)
    (fun _ _ _ _ _ hguard hok hget hI hf =>
      ⟨hI.1.reserve hpos hshort (getpage_nonneg hok hget) hf, hI.2.reserve (hguard _ hget) hf⟩)
    (fun _ _ _ _ _ hI hf => ⟨hI.1.fill hf, hI.2.fill hI.1 hf⟩)
    (fun _ _ _ hI hf => ⟨hI.1.flushBegin hshort hf, hI.2.flushBegin hI.1 hf⟩)
    (fun _ _ _ hI hf => ⟨hI.1.flushEnd hf, hI.2.flushEnd hf⟩)).2 n
  exact ⟨hboth.2.own, hboth.1.carries⟩

/-- Two pages of one block, swapped out and flushed together. -/
theorem reach_ownPages_pair : ∃ s : Traffic, Reach smallConfig Neighbourly s ∧
    ((s.fifo 0).inflight.any fun m => m.size = 2) = true ∧ Exact smallConfig 0 (s.fifo 0) := by
  obtain ⟨s, hs, hsize⟩ := Machine.exists_reach_of_exec init Neighbourly (step smallConfig)
    (fun s => ((s.fifo 0).inflight.any fun m => m.size = 2) = true)
    [.pageReceive 0 0 5, .reserve 0, .fill 0 0 0, .reserve 0, .fill 0 1 1, .flushBegin 0]
    (by decide)
  exact ⟨s, hs, hsize, reach_ownPages (by decide) (by decide) hs 0⟩

/-- A node with one peer and a ring of three slots. -/
def threeSlots : Config := { smallConfig with totalWriteOut := 3 }

/-- The steps that swap `n` pages out from `page` on, flushing whenever the ring is full. -/
def storeRounds : ℕ → ℤ → List Step
  | 0, _ => []
  | n + 1, page =>
    [.reserve 0, .fill 0 (page % 3) page] ++
      (if page % 3 = 2 then [.flushBegin 0, .flushEnd 0] else []) ++ storeRounds n (page + 1)

/-- **A page is written to another page's place.** -/
theorem not_ownPages : ¬ ∀ (cfg : Config) (s : Traffic), 0 < cfg.totalWriteOut →
    cfg.totalWriteOut ≤ 32767 → Reach cfg Machine.free s → ∀ n, Exact cfg n (s.fifo n) := by
  intro hall
  obtain ⟨s, hs, hbad⟩ := Machine.exists_reach_of_exec init Machine.free (step threeSlots)
    (fun s => (s.fifo 0).inflight = some ⟨0, 30, 3, 0⟩ ∧
      ((s.fifo 0).ring.desc 2).pageNO = 1056)
    ([.pageReceive 0 0 5, .pageReceive 0 1056 5] ++ storeRounds 32 0 ++
      [.reserve 0, .fill 0 2 1056, .flushBegin 0]) (by decide)
  have hpage := ((hall _ s (by decide) (by decide) hs 0).own _ hbad.1 2 (by decide)).2
  rw [show (⟨0, 30, 3, 0⟩ : PageWrte).bufIDX + ((2 : ℕ) : ℤ) = 2 from rfl, hbad.2] at hpage
  exact absurd hpage (by decide)

end Traffic
end Comex
