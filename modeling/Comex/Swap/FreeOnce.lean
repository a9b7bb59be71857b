import Comex.Swap.Pending

/-!
# Freeing a COMEX page once

A swap-in that misses the swap cache frees the COMEX page before it maps what it
has read, and `zap_pte_range` frees it for every swap PTE it clears.  Nothing
counts the PTEs and swap-ins that refer to the page, so a page is freed once and
last only in runs where no second reference comes up.

## Main definitions

* `Swap.SafeFree` — the COMEX page is handed out, and nothing else refers to it.
* `Swap.Orderly` — the steps that bring up no second reference.

## Main results

* `Swap.reach_safeFree` — **every free of an orderly run is safe.**
* `Swap.unsafe_free` — after `fork` a swap-in frees what the other process refers to.
-/

namespace Comex

/-- Whether the swap-in is between its two calls of `read_swap_cache_async`. -/
def Fault.isBetween {V P : Type} : Fault V P → Bool
  | .reading _ _ second => second
  | _ => false

namespace Swap

variable {V P T α : Type} [DecidableEq V] [DecidableEq P] [DecidableEq T] [Fintype V]
  {s s' : Swap V P T α} {a : SwapStep V P T α}

/-- The COMEX page a step frees, with the PTE and the swap-in it is freed for. -/
def freed (s : Swap V P T α) : SwapStep V P T α → Option (Entry × V × Option T)
  | .zap v => (s.pte v).swap?.map fun e => (e, v, none)
  | .giveBack t =>
    match s.thread t with
    | .filled v e _ _ => some (e, v, some t)
    | _ => none
  | _ => none

/-- The COMEX page is handed out, no other PTE names the entry, and no other swap-in is for it. -/
structure SafeFree (s : Swap V P T α) (e : Entry) (v : V) (t : Option T) : Prop where
  out : s.out e = true
  ptes : ∀ w, s.pte w = .swap e → w = v
  threads : ∀ u, (s.thread u).source? = some e → t = some u

/-- The steps that bring up no second reference to a COMEX page. -/
def Orderly (s : Swap V P T α) : SwapStep V P T α → Prop
  -- no copy of a swap PTE, nor of the PTE of a page on its way out
  | .fork v _ => (s.pte v).swap? = none ∧
    ∀ p ∈ (s.pte v).page?, s.priv p = none ∧ (s.phase p).target? = none
  -- what a swap-in is for is not handed out
  | .copy _ e => ∀ t, (s.thread t).source? ≠ some e
  -- no fault on an entry that a swap-in is about to free
  | .fault _ v => ∀ e ∈ (s.pte v).swap?, ∀ t, (s.thread t).source? = some e →
    (s.thread t).isFilling = false
  -- a page is read in for the only swap-in, whose PTE still names the entry
  | .insert t _ => ∀ v ∈ (s.thread t).slot?, ∀ e ∈ (s.thread t).source?,
    (s.pte v = .swap e ∨ s.out e = true ∧ ∀ w, s.pte w ≠ .swap e) ∧
      ∀ u, (s.thread u).source? = some e → u = t
  -- no swap PTE is zapped while a swap-in is for its entry
  | .zap v => ∀ e ∈ (s.pte v).swap?, ∀ t, (s.thread t).source? ≠ some e
  -- what a swap-in has freed in its first call stays in the swap cache until its second
  | .remove p => ∀ e ∈ s.priv p, s.out e = false → ∀ t, (s.thread t).source? = some e →
    (s.thread t).isBetween = false
  -- a swap-in that has freed the page maps it
  | .giveUp t => ∀ v ∈ (s.thread t).slot?, ∀ e ∈ (s.thread t).source?, s.pte v = .swap e →
    s.out e = true
  | _ => True

instance [Fintype T] (s : Swap V P T α) : (a : SwapStep V P T α) → Decidable (s.Orderly a)
  | .fork v _ => inferInstanceAs (Decidable (_ ∧ ∀ p ∈ (s.pte v).page?, _ ∧ _))
  | .copy _ e => inferInstanceAs (Decidable (∀ t, (s.thread t).source? ≠ some e))
  | .fault _ v => inferInstanceAs (Decidable (∀ e ∈ (s.pte v).swap?, ∀ t,
      (s.thread t).source? = some e → _))
  | .insert t _ => inferInstanceAs (Decidable (∀ v ∈ (s.thread t).slot?,
      ∀ e ∈ (s.thread t).source?, (_ ∨ _ ∧ ∀ w, s.pte w ≠ .swap e) ∧
        ∀ u, (s.thread u).source? = some e → u = t))
  | .zap v => inferInstanceAs (Decidable (∀ e ∈ (s.pte v).swap?, ∀ t,
      (s.thread t).source? ≠ some e))
  | .remove p => inferInstanceAs (Decidable (∀ e ∈ s.priv p, _ → ∀ t,
      (s.thread t).source? = some e → _))
  | .giveUp t => inferInstanceAs (Decidable (∀ v ∈ (s.thread t).slot?,
      ∀ e ∈ (s.thread t).source?, _ → _))
  | .newPage .. | .write .. | .reuse .. | .add .. | .pass _ | .unmap _ | .unmapFail ..
  | .pageout _ | .putback _ | .lookup _ | .find _ | .noMem _ | .read _ | .giveBack _ | .map _ =>
    inferInstanceAs (Decidable True)

/-! ### What a step does to the swap-ins -/

/-- A page a PTE maps was mapped by it, or is fresh, or comes from `fork` or a swap-in; a page
that a swap-in maps leaves the swap cache with it. -/
theorem Effect.page_back (he : Effect s a s') {v : V} {p : P} (hv : (s'.pte v).page? = some p) :
    (s.pte v).page? = some p ∨ s.fresh p ∨ (∃ w, a = .fork w v ∧ (s.pte w).page? = some p) ∨
      ∃ e, s.priv p = some e ∧ s'.priv p = none := by
  cases he with
  | newPage hq hmay =>
    simp only [fill_pte, Function.update_apply] at hv
    split_ifs at hv
    · obtain rfl := Option.some.inj hv
      exact Or.inr (Or.inl hq)
    · exact Or.inl hv
  | write hw honly | reuse hw honly | reuseFree hw honly =>
    simp only [storeTo_pte, setDirty_pte, deleteFromSwapCache_pte, Function.update_apply] at hv
    split_ifs at hv with hc
    · rw [hc, hw]
      exact Or.inl hv
    · exact Or.inl hv
  | fork hw =>
    simp only [copyPte_pte, Function.update_apply] at hv
    split_ifs at hv with hc
    · exact Or.inr (Or.inr (Or.inl ⟨_, by rw [hc], hv⟩))
    · exact Or.inl hv
  | zapPage | zapFree | zapSwap =>
    simp only [setDirty_pte, deleteFromSwapCache_pte, free_pte, setPte_pte,
      Function.update_apply] at hv
    split_ifs at hv
    · exact absurd hv (by simp [Pte.page?])
    · exact Or.inl hv
  | unmap =>
    simp only [setPhase_pte, unmapAll_pte] at hv
    split_ifs at hv
    · exact absurd hv (by simp [Pte.page?])
    · exact Or.inl hv
  | map ht hlock he hw =>
    simp only [setThread_pte, setDirty_pte, deleteFromSwapCache_pte, setPte_pte,
      Function.update_apply] at hv
    split_ifs at hv
    · obtain rfl := Option.some.inj hv
      exact Or.inr (Or.inr (Or.inr ⟨_, he, by simp⟩))
    · exact Or.inl hv
  | _ => exact Or.inl hv

/-- A COMEX page is freed by a zap of a swap PTE or at the end of a read: no other step gives one
back. -/
theorem Effect.out_free (he : Effect s a s') {e : Entry} (hout : s.out e = true) :
    s'.out e = true ∨ (∃ v, a = .zap v ∧ s.pte v = .swap e ∧ s'.pte v = .none) ∨
      ∃ t v b q, a = .giveBack t ∧ s.thread t = .filled v e b q ∧
        (s'.thread t = .reading v e true ∨ s'.thread t = .got v e q) := by
  cases he with
  | @zapSwap v e' hv =>
    by_cases hc : e = e'
    · subst hc
      exact Or.inr (Or.inl ⟨v, rfl, hv, by simp⟩)
    · exact Or.inl (by simpa [Function.update_of_ne hc] using hout)
  | @giveFirst t v e' q ht =>
    by_cases hc : e = e'
    · subst hc
      exact Or.inr (Or.inr ⟨t, v, _, q, rfl, ht, Or.inl (by simp)⟩)
    · exact Or.inl (by simpa [Function.update_of_ne hc] using hout)
  | @giveSecond t v e' q ht =>
    by_cases hc : e = e'
    · subst hc
      exact Or.inr (Or.inr ⟨t, v, _, q, rfl, ht, Or.inr (by simp)⟩)
    · exact Or.inl (by simpa [Function.update_of_ne hc] using hout)
  | copy =>
    left
    simp only [moveOut_out, Function.update_apply]
    split_ifs
    · rfl
    · exact hout
  | _ => exact Or.inl hout

/-- A swap-in gets to the reading by putting a page into the swap cache. -/
theorem Effect.filling_back (he : Effect s a s') {t : T} (ht : (s'.thread t).isFilling = true) :
    ((s.thread t).isFilling = true ∧ (s.thread t).slot? = (s'.thread t).slot? ∧
      (s.thread t).source? = (s'.thread t).source?) ∨
    ∃ q v e b, a = .insert t q ∧ s.thread t = .reading v e b ∧ s.cache e = none ∧
      (s'.thread t).slot? = some v ∧ (s'.thread t).source? = some e := by
  cases he with
  | @insert t' v e b q ht' hc hq =>
    by_cases htt : t = t'
    · subst htt
      exact Or.inr ⟨q, v, e, b, rfl, ht', hc, by simp [Fault.slot?], by simp [Fault.source?]⟩
    · simp only [setThread_thread, addToSwapCache_thread, Function.update_of_ne htt] at ht ⊢
      exact Or.inl ⟨ht, trivial, trivial⟩
  | @read t' v e b q ht' =>
    left
    by_cases htt : t = t'
    · subst htt
      simp [ht', Fault.isFilling, Fault.slot?, Fault.source?]
    · simp only [setThread_thread, readIn_thread, Function.update_of_ne htt] at ht ⊢
      exact ⟨ht, trivial, trivial⟩
  | fault | hit | miss | findFirst | findSecond | noMemFirst | noMemSecond | giveFirst | giveSecond
  | map | mapFail | giveUp =>
    left
    simp only [setThread_thread, free_thread, setDirty_thread, deleteFromSwapCache_thread,
      setPte_thread, Function.update_apply] at ht ⊢
    split_ifs at ht ⊢
    · exact absurd ht (by simp [Fault.isFilling])
    · exact ⟨ht, rfl, rfl⟩
  | _ => exact Or.inl ⟨ht, rfl, rfl⟩

/-- A swap-in has a page because it had it, or because it is in the swap cache for the entry. -/
theorem Effect.holding_back (he : Effect s a s') (h : Cached s) {t : T} {v : V} {e : Entry} {p : P}
    (hslot : (s'.thread t).slot? = some v) (hentry : (s'.thread t).source? = some e)
    (hpage : (s'.thread t).page? = some p) :
    ((s.thread t).slot? = some v ∧ (s.thread t).source? = some e ∧ (s.thread t).page? = some p) ∨
      s'.priv p = some e := by
  cases he with
  | hit ht hc | findSecond ht hc =>
    simp only [setThread_thread, Function.update_apply] at hslot hentry hpage
    split_ifs at hslot hentry hpage
    · obtain rfl := Option.some.inj hpage
      obtain rfl := Option.some.inj hentry
      exact Or.inr ((h.linked _ _).mp hc)
    · exact Or.inl ⟨hslot, hentry, hpage⟩
  | insert ht hc hq =>
    simp only [setThread_thread, addToSwapCache_thread, Function.update_apply] at hslot hentry hpage
    split_ifs at hslot hentry hpage
    · obtain rfl := Option.some.inj hpage
      obtain rfl := Option.some.inj hentry
      exact Or.inr (by simp)
    · exact Or.inl ⟨hslot, hentry, hpage⟩
  | read ht | giveSecond ht =>
    left
    simp only [setThread_thread, readIn_thread, free_thread,
      Function.update_apply] at hslot hentry hpage
    split_ifs at hslot hentry hpage with hc
    · rw [hc, ht]
      exact ⟨hslot, hentry, hpage⟩
    · exact ⟨hslot, hentry, hpage⟩
  | fault | miss | findFirst | noMemFirst | noMemSecond | giveFirst | map | mapFail | giveUp =>
    left
    simp only [setThread_thread, free_thread, setDirty_thread, deleteFromSwapCache_thread,
      setPte_thread, Function.update_apply] at hslot hentry hpage
    split_ifs at hslot hentry hpage
    · exact absurd hpage (by simp [Fault.page?])
    · exact ⟨hslot, hentry, hpage⟩
  | _ => exact Or.inl ⟨hslot, hentry, hpage⟩

/-- A swap-in is in its second call because it was, or its first call ends. -/
theorem Effect.second_back (he : Effect s a s') {t : T} {v : V} {e : Entry}
    (ht : s'.thread t = .reading v e true) :
    s.thread t = .reading v e true ∨
      (∃ p, a = .find t ∧ s.thread t = .reading v e false ∧ s.cache e = some p) ∨
      (a = .noMem t ∧ s.thread t = .reading v e false ∧ s.cache e = none) ∨
      ∃ q, a = .giveBack t ∧ s.thread t = .filled v e false q := by
  cases he with
  | findFirst ht' hc =>
    simp only [setThread_thread, Function.update_apply] at ht
    split_ifs at ht with htt
    · obtain ⟨rfl, rfl, -⟩ := Fault.reading.inj ht
      subst htt
      exact Or.inr (Or.inl ⟨_, rfl, ht', hc⟩)
    · exact Or.inl ht
  | noMemFirst ht' hc =>
    simp only [setThread_thread, Function.update_apply] at ht
    split_ifs at ht with htt
    · obtain ⟨rfl, rfl, -⟩ := Fault.reading.inj ht
      subst htt
      exact Or.inr (Or.inr (Or.inl ⟨rfl, ht', hc⟩))
    · exact Or.inl ht
  | giveFirst ht' =>
    simp only [setThread_thread, free_thread, Function.update_apply] at ht
    split_ifs at ht with htt
    · obtain ⟨rfl, rfl, -⟩ := Fault.reading.inj ht
      subst htt
      exact Or.inr (Or.inr (Or.inr ⟨_, rfl, ht'⟩))
    · exact Or.inl ht
  | miss =>
    simp only [setThread_thread, Function.update_apply] at ht
    split_ifs at ht
    · exact absurd ht (by simp)
    · exact Or.inl ht
  | fault | hit | findSecond | insert | noMemSecond | read | giveSecond | map | mapFail
  | giveUp =>
    simp only [setThread_thread, free_thread, readIn_thread, addToSwapCache_thread, setDirty_thread,
      deleteFromSwapCache_thread, setPte_thread, Function.update_apply] at ht
    split_ifs at ht
    exact Or.inl ht
  | _ => exact Or.inl ht

/-- A swap-in stays in its second call until that gets a page, or finds none cached. -/
theorem Effect.second_keep (he : Effect s a s') {t : T} {v : V} {e : Entry}
    (ht : s.thread t = .reading v e true) :
    s'.thread t = .reading v e true ∨ (∃ p, s'.thread t = .got v e p) ∨ s.cache e = none := by
  have hne : ∀ {u : T} {f : Fault V P}, s.thread u = f → f ≠ .reading v e true → t ≠ u := by
    rintro u f hu hf rfl
    exact hf (hu.symm.trans ht)
  cases he with
  | @findSecond u w e' p hu hc =>
    by_cases htu : t = u
    · subst htu
      obtain ⟨rfl, rfl, -⟩ := Fault.reading.inj (ht.symm.trans hu)
      exact Or.inr (Or.inl ⟨p, by simp⟩)
    · exact Or.inl (by simpa [Function.update_of_ne htu] using ht)
  | @insert u w e' b q hu hc hq =>
    by_cases htu : t = u
    · subst htu
      obtain ⟨-, rfl, -⟩ := Fault.reading.inj (ht.symm.trans hu)
      exact Or.inr (Or.inr hc)
    · exact Or.inl (by simpa [Function.update_of_ne htu] using ht)
  | @noMemSecond u w e' hu hc =>
    by_cases htu : t = u
    · subst htu
      obtain ⟨-, rfl, -⟩ := Fault.reading.inj (ht.symm.trans hu)
      exact Or.inr (Or.inr hc)
    · exact Or.inl (by simpa [Function.update_of_ne htu] using ht)
  | fault hu | hit hu | miss hu | findFirst hu | noMemFirst hu | read hu | giveFirst hu
  | giveSecond hu | map hu | mapFail hu | giveUp hu =>
    exact Or.inl (by simpa [Function.update_of_ne (hne hu (by simp))] using ht)
  | _ => exact Or.inl ht

/-- A swap-in that has a page keeps it until `do_swap_page` ends. -/
theorem Effect.got_keep (he : Effect s a s') {t : T} {v : V} {e : Entry} {p : P}
    (ht : s.thread t = .got v e p) :
    s'.thread t = .got v e p ∨ a = .map t ∨ a = .giveUp t := by
  have hne : ∀ {u : T} {f : Fault V P}, s.thread u = f → f ≠ .got v e p → t ≠ u := by
    rintro u f hu hf rfl
    exact hf (hu.symm.trans ht)
  cases he with
  | @map u | @mapFail u =>
    by_cases htu : t = u
    · exact Or.inr (Or.inl (by rw [htu]))
    · exact Or.inl (by simpa [Function.update_of_ne htu] using ht)
  | @giveUp u =>
    by_cases htu : t = u
    · exact Or.inr (Or.inr (by rw [htu]))
    · exact Or.inl (by simpa [Function.update_of_ne htu] using ht)
  | fault hu | hit hu | miss hu | findFirst hu | findSecond hu | insert hu | noMemFirst hu
  | noMemSecond hu | read hu | giveFirst hu | giveSecond hu =>
    exact Or.inl (by simpa [Function.update_of_ne (hne hu (by simp))] using ht)
  | _ => exact Or.inl ht

/-- A swap-in whose page and PTE are as it left them maps the page. -/
theorem Effect.pte_of_map {t : T} (he : Effect s (.map t) s') {v : V} {e : Entry} {p : P}
    (ht : s.thread t = .got v e p) (hp : s.priv p = some e) (hv : s.pte v = .swap e) :
    s'.pte v = .page p false := by
  cases he with
  | map ht' =>
    obtain ⟨rfl, rfl, rfl⟩ := Fault.got.inj (ht.symm.trans ht')
    simp
  | mapFail ht' hback =>
    obtain ⟨rfl, rfl, rfl⟩ := Fault.got.inj (ht.symm.trans ht')
    exact absurd ⟨hp, hv⟩ hback

/-! ### The references to a COMEX page -/

/-- The references to the COMEX pages of an orderly run. -/
structure Sole (s : Swap V P T α) : Prop where
  outbound : Outbound s
  /-- One PTE at most names an entry. -/
  pte : ∀ {e : Entry} {v w : V}, s.pte v = .swap e → s.pte w = .swap e → v = w
  /-- One PTE at most maps a page on its way out. -/
  single : ∀ {p : P} {e : Entry} {v w : V}, s.Pending p e → (s.pte v).page? = some p →
    (s.pte w).page? = some p → v = w
  /-- What a swap-in is about to free is handed out, and nothing else refers to it. -/
  filling : ∀ {t : T} {v : V} {e : Entry}, (s.thread t).isFilling = true →
    (s.thread t).slot? = some v → (s.thread t).source? = some e → SafeFree s e v t
  /-- While its PTE names the entry, the page a swap-in has is in the swap cache. -/
  holding : ∀ {t : T} {v : V} {e : Entry} {p : P}, (s.thread t).slot? = some v →
    (s.thread t).source? = some e → (s.thread t).page? = some p → s.pte v = .swap e →
    s.priv p = some e
  /-- A page that is freed while a PTE names it is about to be mapped by a swap-in. -/
  freed : ∀ {v : V} {e : Entry}, s.pte v = .swap e → s.out e = false →
    ∃ t, s.thread t = .reading v e true ∨ ∃ p, s.thread t = .got v e p
  /-- Between the two calls the page read in stays in the swap cache. -/
  between : ∀ {t : T} {v : V} {e : Entry}, s.thread t = .reading v e true → s.pte v = .swap e →
    s.out e = false → ∃ p, s.cache e = some p

omit [DecidableEq V] [DecidableEq P] [DecidableEq T] [Fintype V] in
theorem Sole.init (content : P → α) (store : Entry → α) (seen : V → α) :
    Sole (init content store seen : Swap V P T α) where
  outbound := Outbound.init content store seen
  pte := fun h => by simp [Swap.init] at h
  single := fun h => by simp [Pending, Swap.init] at h
  filling := fun h => by simp [Swap.init, Fault.isFilling] at h
  holding := fun h => by simp [Swap.init, Fault.slot?] at h
  freed := fun h => by simp [Swap.init] at h
  between := fun h => by simp [Swap.init] at h

/-- An orderly step puts a swap PTE only where a page on its way out was mapped. -/
theorem Effect.swap_old (he : Effect s a s') (ho : s.Orderly a) {v : V} {e : Entry}
    (hv : s'.pte v = .swap e) : s.pte v = .swap e ∨
      ∃ p, a = .unmap p ∧ s.Pending p e ∧ (s.pte v).page? = some p := by
  rcases he.swap_back hv with ⟨hold, -⟩ | ⟨p, ha, hpriv, hp, -⟩ | ⟨w, rfl, hw, -⟩
  · exact Or.inl hold
  · exact Or.inr ⟨p, ha, Or.inr ⟨hpriv, v, hp⟩, hp⟩
  · obtain ⟨hnone, -⟩ := ho
    rw [hw] at hnone
    exact absurd hnone (by simp [Pte.swap?])

/-- While a swap-in is for an entry, an orderly step puts no new swap PTE for it. -/
theorem Sole.swap_old (h : Sole s) (he : Effect s a s') (ho : s.Orderly a) {v : V} {e : Entry}
    {t : T} (ht : (s.thread t).source? = some e) (hv : s'.pte v = .swap e) : s.pte v = .swap e := by
  rcases he.swap_old ho hv with hold | ⟨p, -, hp, -⟩
  · exact hold
  · exact absurd ht ((h.outbound.unused hp).1.2 t)

/-- While a swap-in is for an entry, what is read in for it leaves the swap cache by
`__remove_mapping` or with the swap PTE. -/
theorem Sole.priv_keep (h : Sole s) (he : Effect s a s') {v : V} {e : Entry} {t : T} {p : P}
    (ht : (s.thread t).source? = some e) (hp : s.priv p = some e) (hv : s.pte v = .swap e)
    (hv' : s'.pte v = .swap e) :
    s'.priv p = some e ∨ a = .remove p ∧ ¬ s.held p := by
  -- a mapped page would be on its way out, but the entry is in use
  have hm : ¬ s.mapped p := fun hm => (h.outbound.unused (Or.inr ⟨hp, hm⟩)).1.2 t ht
  rcases he.priv_keep h.outbound.cached hp with hkeep | ⟨ha, -, hheld⟩ | ⟨-, hm'⟩ | ⟨w, -, hw, -⟩ |
    ⟨u, w, rfl, hu, hw⟩
  · exact Or.inl hkeep
  · exact Or.inr ⟨ha, hheld⟩
  · exact absurd hm' hm
  · exact absurd ⟨w, hw⟩ hm
  · obtain rfl := h.pte hv hw
    rw [he.pte_of_map hu hp hv] at hv'
    exact absurd hv' (by simp)

/-! ### What a step keeps of them -/

theorem Sole.step_pte (h : Sole s) (he : Effect s a s') (ho : s.Orderly a) {e : Entry} {v w : V}
    (hv : s'.pte v = .swap e) (hw : s'.pte w = .swap e) : v = w := by
  rcases he.swap_old ho hv with hv | ⟨p, hpa, hp, hvp⟩
  · rcases he.swap_old ho hw with hw | ⟨q, -, hq, -⟩
    · exact h.pte hv hw
    · exact absurd hv ((h.outbound.unused hq).1.1 v)
  · rcases he.swap_old ho hw with hw | ⟨q, hqa, -, hwq⟩
    · exact absurd hw ((h.outbound.unused hp).1.1 w)
    · obtain rfl := SwapStep.unmap.inj (hpa.symm.trans hqa)
      exact h.single hp hvp hwq

omit [DecidableEq V] [DecidableEq P] [DecidableEq T] [Fintype V] in
/-- An entry that is handed out by an orderly step is new. -/
theorem Sole.unused_of_copy {v : V} {e : Entry} (h : Sole s) (ho : s.Orderly (.copy v e))
    (hout : s.out e = false) : s.Unused e := by
  refine ⟨fun w hw => ?_, ho⟩
  obtain ⟨t, ht | ⟨p, ht⟩⟩ := h.freed hw hout
  · exact ho t (by rw [ht]; rfl)
  · exact ho t (by rw [ht]; rfl)

/-- A page on its way out has one PTE: `fork` of one is not orderly, and a swap-in maps only what
it takes out of the swap cache. -/
theorem Sole.step_single (h : Sole s) (he : Effect s a s') (ho : s.Orderly a) {p : P} {e : Entry}
    {v w : V} (hp : s'.Pending p e) (hv : (s'.pte v).page? = some p)
    (hw : (s'.pte w).page? = some p) : v = w := by
  rcases he.pending_back hp with hold | ⟨u, d, rfl, hu, honly, hout⟩
  · -- only an old PTE maps a page that was on its way out already
    have hback : ∀ {u : V}, (s'.pte u).page? = some p → (s.pte u).page? = some p := by
      intro u hu
      rcases he.page_back hu with hpage | hfresh | ⟨u', rfl, hpage⟩ | ⟨e', hpriv, hnone⟩
      · exact hpage
      · obtain ⟨-, hpriv, hphase, -⟩ := hfresh
        rcases hold with hold | ⟨hold, -⟩
        · exact absurd (hphase.symm.trans hold) (by simp)
        · exact absurd (hpriv.symm.trans hold) (by simp)
      · obtain ⟨hpriv, htarget⟩ := ho.2 p hpage
        rcases hold with hold | ⟨hold, -⟩
        · rw [hold] at htarget
          exact absurd htarget (by simp [Phase.target?])
        · exact absurd (hpriv.symm.trans hold) (by simp)
      · rcases hp with hp | ⟨hp, -⟩
        · rcases he.copied_back hp with hcopied | ⟨u', d, -, -, -, hout⟩
          · exact absurd ((h.outbound.cached.copied hcopied).symm.trans hpriv) (by simp)
          · exact absurd (hout.symm.trans (h.outbound.unused hold).2) (by simp)
        · exact absurd (hnone.symm.trans hp) (by simp)
    exact h.single hold (hback hv) (hback hw)
  · cases he with
    | copy =>
      rw [honly v hv, honly w hw]

omit [DecidableEq V] [DecidableEq P] [DecidableEq T] [Fintype V] in
/-- The page of the only swap-in of an entry is handed out when a page is read in. -/
theorem Sole.out_of_alone (h : Sole s) {t : T} {v : V} {e : Entry} {b : Bool}
    (ht : s.thread t = .reading v e b) (hc : s.cache e = none) (hv : s.pte v = .swap e)
    (halone : ∀ u, (s.thread u).source? = some e → u = t) : s.out e = true := by
  by_contra hout
  rw [Bool.not_eq_true] at hout
  obtain ⟨u, hu | ⟨p, hu⟩⟩ := h.freed hv hout
  · obtain ⟨p, hp⟩ := h.between hu hv hout
    exact absurd (hc.symm.trans hp) (by simp)
  · obtain rfl := halone u (by rw [hu]; rfl)
    exact absurd (ht.symm.trans hu) (by simp)

/-- A swap-in that reads a page in is the only one for the entry, and its PTE the only one. -/
theorem Sole.step_filling (h : Sole s) (he : Effect s a s') (ho : s.Orderly a) {t : T} {v : V}
    {e : Entry} (ht : (s'.thread t).isFilling = true) (hslot : (s'.thread t).slot? = some v)
    (hentry : (s'.thread t).source? = some e) : SafeFree s' e v t := by
  rcases he.filling_back ht with ⟨hfill, hs, he'⟩ | ⟨q, v', e', b, rfl, ht', hc, hs, he'⟩
  · have hentry' : (s.thread t).source? = some e := he'.trans hentry
    obtain ⟨hout, hptes, hthreads⟩ := h.filling hfill (hs.trans hslot) hentry'
    refine ⟨?_, fun w hw => hptes w (h.swap_old he ho hentry' hw), fun u hu => ?_⟩
    · rcases he.out_free hout with hout' | ⟨w, rfl, hw, -⟩ | ⟨u, w, b, q, rfl, hu, hend⟩
      · exact hout'
      · exact absurd hentry' (ho e (by rw [hw]; rfl) t)
      · -- the swap-in is the one that has just freed the page
        obtain rfl := Option.some.inj (hthreads u (by rw [hu]; rfl))
        rcases hend with hend | hend <;> rw [hend] at ht <;>
          exact absurd ht (by simp [Fault.isFilling])
    · rcases he.entry_back hu with hold | ⟨w, rfl, hw⟩
      · exact hthreads u hold
      · have hno := ho e (by rw [hw]; rfl) t hentry'
        exact absurd (hno.symm.trans hfill) (by simp)
  · obtain rfl := Option.some.inj (hs.symm.trans hslot)
    obtain rfl := Option.some.inj (he'.symm.trans hentry)
    obtain ⟨hnames, halone⟩ := ho v' (by rw [ht']; rfl) e' (by rw [ht']; rfl)
    have hsame : s'.pte = s.pte ∧ s'.out = s.out := by
      cases he with
      | insert => exact ⟨rfl, rfl⟩
    refine ⟨?_, fun w hw => ?_, fun u hu => ?_⟩
    · rw [hsame.2]
      rcases hnames with hv | ⟨hout, -⟩
      · exact h.out_of_alone ht' hc hv halone
      · exact hout
    · rw [hsame.1] at hw
      rcases hnames with hv | ⟨-, hno⟩
      · exact h.pte hw hv
      · exact absurd hw (hno w)
    · rcases he.entry_back hu with hold | ⟨w, ha, -⟩
      · rw [halone u hold]
      · exact absurd ha (by simp)

/-- A swap-in holds the page that is in the swap cache for its entry. -/
theorem Sole.step_holding (h : Sole s) (he : Effect s a s') (ho : s.Orderly a) {t : T} {v : V}
    {e : Entry} {p : P} (hslot : (s'.thread t).slot? = some v)
    (hentry : (s'.thread t).source? = some e) (hpage : (s'.thread t).page? = some p)
    (hv : s'.pte v = .swap e) : s'.priv p = some e := by
  rcases he.holding_back h.outbound.cached hslot hentry hpage with ⟨hs, he', hp⟩ | hpriv
  · have hv' := h.swap_old he ho he' hv
    rcases h.priv_keep he he' (h.holding hs he' hp hv') hv' hv with hkeep | ⟨-, hheld⟩
    · exact hkeep
    · exact absurd ⟨t, hp⟩ hheld
  · exact hpriv

/-- An entry that a PTE names and whose page is given back has a swap-in that is past its read. -/
theorem Sole.step_freed (h : Sole s) (he : Effect s a s') (ho : s.Orderly a) {v : V} {e : Entry}
    (hv : s'.pte v = .swap e) (hout : s'.out e = false) :
    ∃ t, s'.thread t = .reading v e true ∨ ∃ p, s'.thread t = .got v e p := by
  rcases he.swap_old ho hv with hv' | ⟨p, -, hp, -⟩
  · cases hold : s.out e with
    | true =>
      -- given back by this step: by the swap-in, since a zap would take the PTE
      rcases he.out_free hold with hkeep | ⟨w, rfl, hw, hnone⟩ | ⟨t, w, b, q, rfl, ht, hend⟩
      · exact absurd (hout.symm.trans hkeep) (by simp)
      · rw [h.pte hv' hw] at hv
        exact absurd (hv.symm.trans hnone) (by simp)
      · obtain rfl := (h.filling (t := t) (v := w) (e := e) (by rw [ht]; rfl) (by rw [ht]; rfl)
          (by rw [ht]; rfl)).ptes v hv'
        exact ⟨t, hend.imp id fun hgot => ⟨q, hgot⟩⟩
    | false =>
      obtain ⟨t, ht | ⟨p, ht⟩⟩ := h.freed hv' hold
      · refine ⟨t, ?_⟩
        rcases he.second_keep ht with hkeep | hgot | hc
        · exact Or.inl hkeep
        · exact Or.inr hgot
        · obtain ⟨p, hp⟩ := h.between ht hv' hold
          exact absurd (hc.symm.trans hp) (by simp)
      · rcases he.got_keep ht with hkeep | rfl | rfl
        · exact ⟨t, Or.inr ⟨p, hkeep⟩⟩
        · have hpriv := h.holding (t := t) (v := v) (e := e) (p := p) (by rw [ht]; rfl)
            (by rw [ht]; rfl) (by rw [ht]; rfl) hv'
          rw [he.pte_of_map ht hpriv hv'] at hv
          exact absurd hv (by simp)
        · have hgiven := ho v (by rw [ht]; rfl) e (by rw [ht]; rfl) hv'
          exact absurd (hold.symm.trans hgiven) (by simp)
  · -- the entry of a page that has just been unmapped is not freed
    obtain ⟨hun, hpout⟩ := h.outbound.unused hp
    exact absurd (hout.symm.trans (he.out_keep hpout hun)) (by simp)

/-- Between its two calls a swap-in finds in the swap cache what its first call has read. -/
theorem Sole.cache_of_second (h : Sole s) (he : Effect s a s') (ho : s.Orderly a) {t : T} {v : V}
    {e : Entry} (ht : s.thread t = .reading v e true) (hv : s.pte v = .swap e)
    (hout : s'.out e = false) : s.out e = false ∧ ∃ p, s.cache e = some p := by
  have hentry : (s.thread t).source? = some e := by rw [ht]; rfl
  have hold : s.out e = false := by
    by_contra hold
    rw [Bool.not_eq_false] at hold
    rcases he.out_free hold with hkeep | ⟨w, rfl, hw, -⟩ | ⟨u, w, b, q, rfl, hu, -⟩
    · exact absurd (hout.symm.trans hkeep) (by simp)
    · exact ho e (by rw [hw]; rfl) t hentry
    · have halone := (h.filling (t := u) (v := w) (e := e) (by rw [hu]; rfl) (by rw [hu]; rfl)
        (by rw [hu]; rfl)).threads t hentry
      rw [Option.some.inj halone] at hu
      exact absurd (ht.symm.trans hu) (by simp)
  exact ⟨hold, h.between ht hv hold⟩

/-- Between its two calls a swap-in has its page in the swap cache. -/
theorem Sole.step_between (h : Sole s) (he : Effect s a s') (ho : s.Orderly a) {t : T} {v : V}
    {e : Entry} (ht : s'.thread t = .reading v e true) (hv : s'.pte v = .swap e)
    (hout : s'.out e = false) : ∃ p, s'.cache e = some p := by
  have hlinked := he.linked h.outbound.cached
  rcases he.second_back ht with ht' | ⟨p, rfl, -, hc⟩ | ⟨rfl, ht', hc⟩ | ⟨q, rfl, ht'⟩
  · have hentry : (s.thread t).source? = some e := by rw [ht']; rfl
    have hv' := h.swap_old he ho hentry hv
    obtain ⟨hold, p, hc⟩ := h.cache_of_second he ho ht' hv' hout
    have hp := (h.outbound.cached.linked e p).mp hc
    rcases h.priv_keep he hentry hp hv' hv with hkeep | ⟨rfl, -⟩
    · exact ⟨p, (hlinked e p).mpr hkeep⟩
    · have hno := ho e hp hold t hentry
      rw [ht'] at hno
      exact absurd hno (by simp [Fault.isBetween])
  · refine ⟨p, ?_⟩
    cases he with
    | findFirst | findSecond => exact hc
  · -- had the page been freed, it would be in the swap cache
    exfalso
    have hsame : s'.pte = s.pte ∧ s'.out = s.out := by
      cases he with
      | noMemFirst | noMemSecond => exact ⟨rfl, rfl⟩
    rw [hsame.1] at hv
    rw [hsame.2] at hout
    obtain ⟨u, hu | ⟨p, hu⟩⟩ := h.freed hv hout
    · obtain ⟨p, hp⟩ := h.between hu hv hout
      exact absurd (hc.symm.trans hp) (by simp)
    · have hp := h.holding (t := u) (v := v) (e := e) (p := p) (by rw [hu]; rfl)
        (by rw [hu]; rfl) (by rw [hu]; rfl) hv
      exact absurd (hc.symm.trans ((h.outbound.cached.linked e p).mpr hp)) (by simp)
  · -- the first call has just given the COMEX page back
    refine ⟨q, (hlinked e q).mpr ?_⟩
    have hsame : s'.pte = s.pte ∧ s'.priv = s.priv := by
      cases he with
      | giveFirst | giveSecond => exact ⟨rfl, rfl⟩
    rw [hsame.1] at hv
    rw [hsame.2]
    exact h.holding (t := t) (v := v) (e := e) (p := q) (by rw [ht']; rfl) (by rw [ht']; rfl)
      (by rw [ht']; rfl) hv

/-- Every orderly step keeps the references sole. -/
theorem Sole.step (h : Sole s) (he : Effect s a s') (ho : s.Orderly a) : Sole s' where
  outbound := h.outbound.step he (by rintro v e rfl hout; exact h.unused_of_copy ho hout)
  pte := h.step_pte he ho
  single := h.step_single he ho
  filling := h.step_filling he ho
  holding := h.step_holding he ho
  freed := h.step_freed he ho
  between := h.step_between he ho

/-! ### Every free is safe -/

/-- **Every free of an orderly run is safe**: when `zap_pte_range` or `read_swap_cache_async` gives
a COMEX page back it is handed out, and no other PTE and no other swap-in refers to it. -/
theorem reach_safeFree [Fintype T] {content : P → α} {store : Entry → α} {seen : V → α}
    {s : Swap V P T α} {a : SwapStep V P T α} {e : Entry} {v : V} {t : Option T}
    (h : Reach content store seen Orderly s) (ho : s.Orderly a)
    (hfree : s.freed a = some (e, v, t)) : SafeFree s e v t := by
  have hsole : Sole s := by
    refine h.invariant (I := Sole) ?_ fun s a s' _ hs ho hstep => hs.step (step_effect hstep) ho
    rintro s rfl
    exact Sole.init content store seen
  cases a with
  | zap w =>
    simp only [freed, Option.map_eq_some_iff, Prod.mk.injEq] at hfree
    obtain ⟨e', he, rfl, rfl, rfl⟩ := hfree
    have hw : s.pte w = .swap e' := by
      cases hw : s.pte w with
      | swap e => exact congrArg Pte.swap (by simpa [hw, Pte.swap?] using he)
      | none => simp [hw, Pte.swap?] at he
      | page p d => simp [hw, Pte.swap?] at he
    have hthreads := ho e' he
    refine ⟨?_, fun u hu => hsole.pte hu hw, fun u hu => absurd hu (hthreads u)⟩
    by_contra hout
    rw [Bool.not_eq_true] at hout
    obtain ⟨u, hu | ⟨p, hu⟩⟩ := hsole.freed hw hout
    · exact hthreads u (by rw [hu]; rfl)
    · exact hthreads u (by rw [hu]; rfl)
  | giveBack u =>
    cases hu : s.thread u with
    | filled w e' b q =>
      simp only [freed, hu, Option.some.injEq, Prod.mk.injEq] at hfree
      obtain ⟨rfl, rfl, rfl⟩ := hfree
      exact hsole.filling (by rw [hu]; rfl) (by rw [hu]; rfl) (by rw [hu]; rfl)
    | _ => simp [freed, hu] at hfree
  | _ => simp [freed] at hfree

/-- A swap-in that misses the swap cache frees the page it has read. -/
theorem reach_safeFree_readIn : ∃ s : Swap Bool ℕ Unit ℕ,
    Reach (fun _ => 0) (fun _ => 0) (fun _ => 0) Orderly s ∧
      SafeFree s (.atHome 5) false (some ()) := by
  obtain ⟨s, hs, ho, hfree⟩ := Machine.exists_reach_of_exec
    (init (fun _ => 0) (fun _ => 0) (fun _ => 0) : Swap Bool ℕ Unit ℕ) Orderly step
    (fun s => s.Orderly (.giveBack ()) ∧
      s.freed (.giveBack ()) = some (.atHome 5, false, some ()))
    [.newPage false 0 1, .copy false (.atHome 5), .add 0 true, .unmap 0, .pageout 0, .remove 0,
      .fault () false, .lookup (), .insert () 1, .read ()] (by decide)
  exact ⟨s, hs, reach_safeFree hs ho hfree⟩

/-- **After `fork` a swap-in frees a page that the other process refers to.** -/
theorem unsafe_free : ¬ ∀ (s : Swap Bool ℕ Unit ℕ) (a : SwapStep Bool ℕ Unit ℕ) (e : Entry)
    (v : Bool) (t : Option Unit), Reach (fun _ => 0) (fun _ => 0) (fun _ => 0) Machine.free s →
      s.freed a = some (e, v, t) → SafeFree s e v t := by
  intro hall
  obtain ⟨s, hs, hfree, hother⟩ := Machine.exists_reach_of_exec
    (init (fun _ => 0) (fun _ => 0) (fun _ => 0) : Swap Bool ℕ Unit ℕ) Machine.free step
    (fun s => s.freed (.giveBack ()) = some (.atHome 5, false, some ()) ∧
      s.pte true = .swap (.atHome 5))
    [.newPage false 0 1, .copy false (.atHome 5), .add 0 true, .unmap 0, .pageout 0, .remove 0,
      .fork false true, .fault () false, .lookup (), .insert () 1, .read ()] (by decide)
  exact absurd ((hall s _ _ _ _ hs hfree).ptes true hother) (by decide)

end Swap
end Comex
