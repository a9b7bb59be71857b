import Comex.Lib.Linked
import Comex.Swap.Machine

/-!
# Pages on their way out

A page is on its way out to an entry from its copy in `add_to_swap` until it is
unmapped or leaves the swap cache.  Whatever the threads do, the swap cache and
`page_private` agree, and what a state says about PTEs, entries, COMEX pages and
pages on their way out can be traced to the state before the step.

## Main definitions

* `Cached` — what holds of the swap cache in every run.
* `Pending`, `Unused` — a page on its way out; an entry nobody refers to.
* `Outbound` — every page on its way out has an entry of its own.

## Main results

* `Cached.step` — every step keeps it.
* `Effect.swap_back`, `Effect.entry_back`, `Effect.cache_back`, `Effect.pending_back` — where a
  swap PTE, a swap-in, a page in the swap cache and a page on its way out come from.
* `Outbound.step` — steps that hand out only unused entries keep `Outbound`.
-/

namespace Comex
namespace Swap

variable {V P T α : Type} [DecidableEq V] [DecidableEq P] [DecidableEq T] [Fintype V]
  {s s' : Swap V P T α} {a : SwapStep V P T α}

/-- The swap cache and its back references agree; a page being added is not in it yet, a page
being read in is in it and left alone by reclaim. -/
structure Cached (s : Swap V P T α) : Prop where
  linked : Linked s.cache s.priv
  copied : ∀ {p : P} {e : Entry}, s.phase p = .copied e → s.priv p = none
  inserted : ∀ {t : T} {v : V} {e : Entry} {b : Bool} {q : P},
    s.thread t = .inserted v e b q → s.priv q = some e ∧ s.phase q = .idle

omit [DecidableEq V] [DecidableEq P] [DecidableEq T] [Fintype V] in
theorem Cached.init (content : P → α) (store : Entry → α) (seen : V → α) :
    Cached (init content store seen : Swap V P T α) where
  linked := fun _ _ => by simp [Swap.init]
  copied := fun _ => rfl
  inserted := fun h => by simp [Swap.init] at h

theorem Effect.linked (he : Effect s a s') (h : Cached s) : Linked s'.cache s'.priv := by
  cases he with
  | reuseFree hv hp hlock he => exact h.linked.erase he
  | zapFree hv hp hlock he => exact h.linked.erase he
  | add hp hcache => exact h.linked.insert hcache (h.copied hp)
  | unmapFree hp hm he => exact h.linked.erase he
  | remove hp hm hheld he => exact h.linked.erase he
  | insert ht hc hq => exact h.linked.insert hc hq.2.1
  | map ht hlock he hv => exact h.linked.erase he
  | _ => exact h.linked

theorem Effect.copied (he : Effect s a s') (h : Cached s) {p : P} {e : Entry} :
    s'.phase p = .copied e → s'.priv p = none := by
  have hold := h.copied (p := p) (e := e)
  cases he with
  | insert ht hc hq =>
    -- a fresh page is not being added
    intro hp
    have hne : p ≠ _ := fun hc => by rw [hc] at hp; exact absurd (hq.2.2.1.symm.trans hp) (by simp)
    simpa [hne] using hold hp
  | copy | add | addFail | pass | unmap | unmapKeep | unmapFree | pageout | remove | putback
  | reuseFree | zapFree | map =>
    simp only [Function.update_apply, moveOut_phase, moveOut_priv, setPhase_phase, setPhase_priv,
      setDirty_phase, setDirty_priv, addToSwapCache_phase, addToSwapCache_priv,
      deleteFromSwapCache_phase, deleteFromSwapCache_priv, unmapAll_phase, unmapAll_priv,
      setPte_phase, setPte_priv, setThread_phase, setThread_priv, storeTo_phase, storeTo_priv]
    split_ifs <;> simp_all
  | _ => exact hold

omit [DecidableEq V] [DecidableEq P] [DecidableEq T] [Fintype V] in
theorem held_of_inserted {t : T} {v : V} {e : Entry} {b : Bool} {q : P}
    (h : s.thread t = .inserted v e b q) : s.held q ∧ s.locked q :=
  ⟨⟨t, by rw [h]; rfl⟩, Or.inr ⟨t, by rw [h]; rfl⟩⟩

theorem Effect.inserted (he : Effect s a s') (h : Cached s) {t : T} {v : V} {e : Entry} {b : Bool}
    {q : P} (ht : s'.thread t = .inserted v e b q) : s'.priv q = some e ∧ s'.phase q = .idle := by
  have hold := h.inserted (t := t) (v := v) (e := e) (b := b) (q := q)
  have hlock : s.thread t = .inserted v e b q → s.held q ∧ s.locked q := held_of_inserted
  cases he with
  | insert ht' hc hq =>
    obtain ⟨-, hpriv, hphase, -⟩ := hq
    simp only [setThread_thread, addToSwapCache_thread, Function.update_apply] at ht
    simp only [setThread_priv, addToSwapCache_priv, setThread_phase, addToSwapCache_phase,
      Function.update_apply]
    grind
  | copy | add | addFail | pass | unmap | unmapKeep | unmapFree | pageout | remove | putback
  | reuseFree | zapFree =>
    -- the page being read in is locked, held and idle, so the step meets another page
    have hq := hold ht
    have hl := hlock ht
    simp only [Function.update_apply, moveOut_phase, moveOut_priv, setPhase_phase, setPhase_priv,
      setDirty_phase, setDirty_priv, addToSwapCache_phase, addToSwapCache_priv,
      deleteFromSwapCache_phase, deleteFromSwapCache_priv, unmapAll_phase, unmapAll_priv,
      setPte_phase, setPte_priv, storeTo_phase, storeTo_priv]
    grind
  | map ht' hl he hv =>
    simp only [setThread_thread, setDirty_thread, deleteFromSwapCache_thread, setPte_thread,
      Function.update_apply] at ht
    simp only [Function.update_apply, setDirty_phase, setDirty_priv, deleteFromSwapCache_phase,
      deleteFromSwapCache_priv, setPte_phase, setPte_priv, setThread_phase, setThread_priv]
    grind
  | fault | hit | miss | findFirst | findSecond | noMemFirst | noMemSecond | read | giveFirst
  | giveSecond | mapFail | giveUp =>
    simp only [setThread_thread, readIn_thread, free_thread, Function.update_apply] at ht
    split_ifs at ht
    exact hold ht
  | _ => exact hold ht

theorem Cached.step (h : Cached s) (he : Effect s a s') : Cached s' :=
  ⟨he.linked h, he.copied h, he.inserted h⟩

/-! ### What a step leaves behind -/

/-- The page is on its way out to the entry. -/
def Pending (s : Swap V P T α) (p : P) (e : Entry) : Prop :=
  s.phase p = .copied e ∨ s.priv p = some e ∧ s.mapped p

/-- No PTE names the entry and no swap-in is for it. -/
def Unused (s : Swap V P T α) (e : Entry) : Prop :=
  (∀ v, s.pte v ≠ .swap e) ∧ ∀ t, (s.thread t).source? ≠ some e

instance [Fintype T] (s : Swap V P T α) (e : Entry) : Decidable (s.Unused e) :=
  inferInstanceAs (Decidable (_ ∧ _))

/-- A page that gets mapped is in no swap cache: it is fresh, or a swap-in maps it and takes it
out. -/
theorem Effect.mapped_back (he : Effect s a s') {p : P} (hp : s'.mapped p) :
    s.mapped p ∨ s'.priv p = none := by
  obtain ⟨w, hw⟩ := hp
  cases he with
  | newPage hq hv =>
    simp only [fill_pte, Function.update_apply] at hw
    split_ifs at hw
    · obtain rfl := Option.some.inj hw
      exact Or.inr hq.2.1
    · exact Or.inl ⟨w, hw⟩
  -- a store maps the page it finds mapped
  | write hv hp | reuse hv hp | reuseFree hv hp =>
    simp only [storeTo_pte, setDirty_pte, deleteFromSwapCache_pte, Function.update_apply] at hw
    split_ifs at hw
    · obtain rfl := Option.some.inj hw
      exact Or.inl ⟨_, by rw [hv]; rfl⟩
    · exact Or.inl ⟨w, hw⟩
  | fork hw' =>
    simp only [copyPte_pte, Function.update_apply] at hw
    split_ifs at hw
    · exact Or.inl ⟨_, hw⟩
    · exact Or.inl ⟨w, hw⟩
  | zapPage | zapFree | zapSwap =>
    simp only [setDirty_pte, deleteFromSwapCache_pte, free_pte, setPte_pte,
      Function.update_apply] at hw
    split_ifs at hw
    · exact absurd hw (by simp [Pte.page?])
    · exact Or.inl ⟨w, hw⟩
  | unmap hp he =>
    simp only [setPhase_pte, unmapAll_pte] at hw
    split_ifs at hw
    · exact absurd hw (by simp [Pte.page?])
    · exact Or.inl ⟨w, hw⟩
  | map ht hlock he hv =>
    simp only [setThread_pte, setDirty_pte, deleteFromSwapCache_pte, setPte_pte,
      Function.update_apply] at hw
    split_ifs at hw
    · obtain rfl := Option.some.inj hw
      exact Or.inr (by simp)
    · exact Or.inl ⟨w, hw⟩
  | _ => exact Or.inl ⟨w, hw⟩

/-- A page that gets into the swap cache was being added, or is read in and not mapped. -/
theorem Effect.priv_back (he : Effect s a s') {p : P} {e : Entry} (hp : s'.priv p = some e) :
    s.priv p = some e ∨ s.phase p = .copied e ∨ ¬ s'.mapped p := by
  cases he with
  | add hphase hcache =>
    simp only [setPhase_priv, setDirty_priv, addToSwapCache_priv, Function.update_apply] at hp
    split_ifs at hp with hc
    · rw [hc, hphase, Option.some.inj hp]
      exact Or.inr (Or.inl rfl)
    · exact Or.inl hp
  | insert ht hc hq =>
    simp only [setThread_priv, addToSwapCache_priv, Function.update_apply] at hp
    split_ifs at hp with hpq
    · rw [hpq]
      exact Or.inr (Or.inr hq.1)
    · exact Or.inl hp
  | reuseFree | zapFree | unmapFree | remove | map =>
    simp only [storeTo_priv, setThread_priv, setPhase_priv, setDirty_priv, deleteFromSwapCache_priv,
      setPte_priv, Function.update_apply] at hp
    split_ifs at hp
    exact Or.inl hp
  | _ => exact Or.inl hp

/-- A page gets into the swap cache in `add_to_swap` or at the start of a read. -/
theorem Effect.cache_back (he : Effect s a s') {e : Entry} {p : P} (hp : s'.cache e = some p) :
    s.cache e = some p ∨ (a = .add p true ∧ s.phase p = .copied e) ∨
      ∃ t v b, a = .insert t p ∧ s.thread t = .reading v e b ∧ s.fresh p := by
  cases he with
  | add hphase hcache =>
    simp only [setPhase_cache, setDirty_cache, addToSwapCache_cache, Function.update_apply] at hp
    split_ifs at hp with hc
    · obtain rfl := Option.some.inj hp
      rw [hc]
      exact Or.inr (Or.inl ⟨rfl, hphase⟩)
    · exact Or.inl hp
  | insert ht hcache hq =>
    simp only [setThread_cache, addToSwapCache_cache, Function.update_apply] at hp
    split_ifs at hp with hc
    · obtain rfl := Option.some.inj hp
      rw [hc]
      exact Or.inr (Or.inr ⟨_, _, _, rfl, ht, hq⟩)
    · exact Or.inl hp
  | reuseFree | zapFree | unmapFree | remove | map =>
    simp only [storeTo_cache, setThread_cache, setPhase_cache, setDirty_cache,
      deleteFromSwapCache_cache, setPte_cache, Function.update_apply] at hp
    split_ifs at hp
    exact Or.inl hp
  | _ => exact Or.inl hp

/-- A page being added was being added, or is copied by the step. -/
theorem Effect.copied_back (he : Effect s a s') {p : P} {e : Entry} (hp : s'.phase p = .copied e) :
    s.phase p = .copied e ∨
      ∃ v d, a = .copy v e ∧ s.pte v = .page p d ∧ s.only v p ∧ s.out e = false := by
  cases he with
  | copy hv honly hpriv hphase hheld hout =>
    simp only [moveOut_phase, Function.update_apply] at hp
    split_ifs at hp with hc
    · obtain rfl := Phase.copied.inj hp
      subst hc
      exact Or.inr ⟨_, _, rfl, hv, honly, hout⟩
    · exact Or.inl hp
  | add | addFail | pass | unmap | unmapKeep | unmapFree | pageout | remove | putback =>
    simp only [setPhase_phase, setDirty_phase, addToSwapCache_phase, deleteFromSwapCache_phase,
      unmapAll_phase, Function.update_apply] at hp
    split_ifs at hp
    exact Or.inl hp
  | _ => exact Or.inl hp

/-- **A page on its way out was on its way, or is copied by the step.** -/
theorem Effect.pending_back (he : Effect s a s') {p : P} {e : Entry} (hp : s'.Pending p e) :
    s.Pending p e ∨
      ∃ v d, a = .copy v e ∧ s.pte v = .page p d ∧ s.only v p ∧ s.out e = false := by
  rcases hp with hp | ⟨hpriv, hm⟩
  · exact (he.copied_back hp).imp Or.inl id
  · left
    rcases he.priv_back hpriv with hold | hold | hout
    · rcases he.mapped_back hm with hm | hnone
      · exact Or.inr ⟨hold, hm⟩
      · rw [hnone] at hpriv
        exact absurd hpriv (by simp)
    · exact Or.inl hold
    · exact absurd hm hout

/-- A swap PTE was there, or is put there by `try_to_unmap` or `fork`. -/
theorem Effect.swap_back (he : Effect s a s') {v : V} {e : Entry} (hv : s'.pte v = .swap e) :
    s.pte v = .swap e ∧ s'.seen v = s.seen v ∨
      (∃ p, a = .unmap p ∧ s.priv p = some e ∧ (s.pte v).page? = some p ∧
        s'.seen v = s.content p) ∨
      ∃ w, a = .fork w v ∧ s.pte w = .swap e ∧ s'.seen v = s.seen w := by
  cases he with
  | unmap hp he =>
    simp only [setPhase_pte, unmapAll_pte] at hv
    simp only [setPhase_seen, unmapAll_seen]
    split_ifs at hv ⊢ with hm
    · obtain rfl := Pte.swap.inj hv
      exact Or.inr (Or.inl ⟨_, rfl, he, hm, rfl⟩)
    · exact Or.inl ⟨hv, rfl⟩
  | fork hw =>
    simp only [copyPte_pte, copyPte_seen, Function.update_apply] at hv ⊢
    split_ifs at hv ⊢ with hc
    · subst hc
      exact Or.inr (Or.inr ⟨_, rfl, hv, rfl⟩)
    · exact Or.inl ⟨hv, rfl⟩
  -- a PTE that is assigned maps a page afterwards, or is empty
  | newPage | write | reuse | reuseFree | zapPage | zapFree | zapSwap | map =>
    simp only [fill_pte, storeTo_pte, free_pte, setThread_pte, setDirty_pte,
      deleteFromSwapCache_pte, setPte_pte, Function.update_apply] at hv
    split_ifs at hv
    exact Or.inl ⟨hv, rfl⟩
  | _ => exact Or.inl ⟨hv, rfl⟩

/-- A swap-in for an entry was there, or starts at a PTE that names it. -/
theorem Effect.entry_back (he : Effect s a s') {t : T} {e : Entry}
    (ht : (s'.thread t).source? = some e) :
    (s.thread t).source? = some e ∨ ∃ v, a = .fault t v ∧ s.pte v = .swap e := by
  cases he with
  | fault ht' hv =>
    simp only [setThread_thread, Function.update_apply] at ht
    split_ifs at ht with hc
    · obtain rfl := Option.some.inj ht
      subst hc
      exact Or.inr ⟨_, rfl, hv⟩
    · exact Or.inl ht
  | hit ht' | miss ht' | findFirst ht' | findSecond ht' | insert ht' | noMemFirst ht' | read ht'
  | giveFirst ht' | giveSecond ht' =>
    left
    simp only [setThread_thread, addToSwapCache_thread, readIn_thread, free_thread,
      Function.update_apply] at ht
    split_ifs at ht with hc
    · rw [hc, ht']
      exact ht
    · exact ht
  -- these end a swap-in
  | noMemSecond | map | mapFail | giveUp =>
    simp only [setThread_thread, setDirty_thread, deleteFromSwapCache_thread, setPte_thread,
      Function.update_apply] at ht
    split_ifs at ht
    · exact absurd ht (by simp [Fault.source?])
    · exact Or.inl ht
  | _ => exact Or.inl ht

/-- An entry nobody refers to is not freed. -/
theorem Effect.out_keep (he : Effect s a s') {e : Entry} (hout : s.out e = true)
    (hun : s.Unused e) : s'.out e = true := by
  cases he with
  | zapSwap hv =>
    have hne : e ≠ _ := fun hc => hun.1 _ (by rw [hc]; exact hv)
    simpa [Function.update_of_ne hne] using hout
  | giveFirst ht | giveSecond ht =>
    have hne : e ≠ _ := fun hc => hun.2 _ (by rw [hc, ht]; rfl)
    simpa [Function.update_of_ne hne] using hout
  | copy =>
    simp only [moveOut_out, Function.update_apply]
    split_ifs
    · rfl
    · exact hout
  | _ => exact hout

/-- An entry nobody refers to stays so, unless a page is unmapped to it. -/
theorem Effect.unused (he : Effect s a s') {e : Entry} (h : s.Unused e)
    (hun : ∀ p, a = .unmap p → s.priv p = some e → ¬ s.mapped p) : s'.Unused e := by
  refine ⟨fun v hv => ?_, fun t ht => ?_⟩
  · rcases he.swap_back hv with ⟨hold, -⟩ | ⟨p, ha, hpriv, hm, -⟩ | ⟨w, -, hw, -⟩
    · exact h.1 v hold
    · exact hun p ha hpriv ⟨v, hm⟩
    · exact h.1 w hw
  · rcases he.entry_back ht with hold | ⟨v, -, hv⟩
    · exact h.2 t hold
    · exact h.1 v hv

/-- An unmapped page is no longer on its way. -/
theorem not_pending_of_unmap {p : P} (he : Effect s (.unmap p) s') (e : Entry) :
    ¬ s'.Pending p e := by
  cases he with
  | unmap hp hpriv =>
    rintro (hc | ⟨-, w, hw⟩)
    · simp at hc
    · simp only [setPhase_pte, unmapAll_pte] at hw
      split_ifs at hw with hm
      · exact absurd hw (by simp [Pte.page?])
      · exact hm hw

/-! ### What a step keeps -/

/-- A swap PTE stays until it is zapped or a swap-in maps it. -/
theorem Effect.swap_keep (he : Effect s a s') {v : V} {e : Entry} (hv : s.pte v = .swap e) :
    s'.pte v = .swap e ∨ a = .zap v ∨
      ∃ t p, a = .map t ∧ s.thread t = .got v e p ∧ s.priv p = some e := by
  have hne : ∀ {w : V} {x : Pte P}, s.pte w = x → x ≠ .swap e → v ≠ w := by
    rintro w x hw hx rfl
    exact hx (hw.symm.trans hv)
  cases he with
  | @newPage w q b hq hnone =>
    have hw : v ≠ w := by
      rintro rfl
      rw [hv] at hnone
      exact absurd hnone (by simp [Pte.swap?])
    exact Or.inl (by simpa [Function.update_of_ne hw] using hv)
  | fork hw | write hw | reuse hw | reuseFree hw | zapPage hw | zapFree hw =>
    exact Or.inl (by simpa [Function.update_of_ne (hne hw (by simp))] using hv)
  | @zapSwap w e' hw =>
    by_cases hc : v = w
    · exact Or.inr (Or.inl (by rw [hc]))
    · exact Or.inl (by simpa [Function.update_of_ne hc] using hv)
  | unmap =>
    left
    simp only [setPhase_pte, unmapAll_pte, hv]
    simp [Pte.page?]
  | @map t w e' p ht hlock hpriv hw =>
    by_cases hc : v = w
    · subst hc
      obtain rfl := Pte.swap.inj (hv.symm.trans hw)
      exact Or.inr (Or.inr ⟨t, p, rfl, ht, hpriv⟩)
    · exact Or.inl (by simpa [Function.update_of_ne hc] using hv)
  | _ => exact Or.inl hv

omit [DecidableEq P] [DecidableEq T] [Fintype V] in
/-- Where one PTE changes, a mapped page stays mapped, or the PTE was the only one to map it. -/
theorem mapped_of_update {p : P} (hm : s.mapped p) (v : V) {x : Pte P}
    (hpte : s'.pte = Function.update s.pte v x) :
    s'.mapped p ∨ (s.pte v).page? = some p ∧ s.only v p := by
  by_cases hc : ∃ u, u ≠ v ∧ (s.pte u).page? = some p
  · obtain ⟨u, hu, hup⟩ := hc
    exact Or.inl ⟨u, by rw [hpte, Function.update_of_ne hu]; exact hup⟩
  · push Not at hc
    obtain ⟨w, hw⟩ := hm
    have hwv : w = v := by
      by_contra hne
      exact hc w hne hw
    subst hwv
    refine Or.inr ⟨hw, fun u hu => ?_⟩
    by_contra hne
    exact hc u hne hu

/-- A mapped page stays mapped until it is unmapped, or the last PTE that maps it is zapped or
gets a new page. -/
theorem Effect.mapped_keep (he : Effect s a s') {p : P} (hm : s.mapped p) :
    s'.mapped p ∨ a = .unmap p ∨ ∃ v, (a = .zap v ∨ ∃ q b, a = .newPage v q b) ∧
      (s.pte v).page? = some p ∧ s.only v p := by
  obtain ⟨w, hw⟩ := hm
  have hne : ∀ {v : V} {x : Pte P}, s.pte v = x → x.page? = none → w ≠ v := by
    rintro v x hv hx rfl
    rw [hv, hx] at hw
    exact absurd hw (by simp)
  cases he with
  | @newPage v q b hq hnone =>
    have hmap : (s.fill v q b).mapped p ∨ (s.pte v).page? = some p ∧ s.only v p :=
      mapped_of_update ⟨w, hw⟩ v rfl
    rcases hmap with hm | ⟨hv, honly⟩
    · exact Or.inl hm
    · exact Or.inr (Or.inr ⟨v, Or.inr ⟨q, b, rfl⟩, hv, honly⟩)
  | @write v b q d hv | @reuse v b q d hv | @reuseFree v b q d _ hv =>
    left
    by_cases hc : w = v
    · subst hc
      rw [hv] at hw
      exact ⟨w, by simpa [Pte.page?] using hw⟩
    · exact ⟨w, by simpa [Function.update_of_ne hc] using hw⟩
  | fork hu => exact Or.inl ⟨w, by simpa [Function.update_of_ne (hne hu rfl)] using hw⟩
  | @zapPage v q d hv =>
    have hmap : (s.setPte v .none).mapped p ∨ (s.pte v).page? = some p ∧ s.only v p :=
      mapped_of_update ⟨w, hw⟩ v rfl
    rcases hmap with hm | ⟨hv, honly⟩
    · exact Or.inl hm
    · exact Or.inr (Or.inr ⟨v, Or.inl rfl, hv, honly⟩)
  | @zapFree v q d e hv honly =>
    by_cases hc : w = v
    · subst hc
      refine Or.inr (Or.inr ⟨w, Or.inl rfl, hw, ?_⟩)
      rw [hv] at hw
      obtain rfl := Option.some.inj hw
      exact honly
    · exact Or.inl ⟨w, by simpa [Function.update_of_ne hc] using hw⟩
  | zapSwap hv | map _ _ _ hv =>
    exact Or.inl ⟨w, by simpa [Function.update_of_ne (hne hv rfl)] using hw⟩
  | @unmap q e hq hpriv =>
    by_cases hc : p = q
    · exact Or.inr (Or.inl (by rw [hc]))
    · refine Or.inl ⟨w, ?_⟩
      have hother : ¬ (s.pte w).page? = some q := fun hq' =>
        hc (Option.some.inj (hw.symm.trans hq'))
      rw [setPhase_pte, unmapAll_pte, if_neg hother]
      exact hw
  | _ => exact Or.inl ⟨w, hw⟩

/-- A page stays in the swap cache until it is dropped there: by reclaim, by `try_to_free_swap`
after a failed unmapping, with its last PTE, by `reuse_swap_page`, or by a swap-in that maps it. -/
theorem Effect.priv_keep (he : Effect s a s') (h : Cached s) {p : P} {e : Entry}
    (hp : s.priv p = some e) : s'.priv p = some e ∨
      (a = .remove p ∧ ¬ s.mapped p ∧ ¬ s.held p) ∨
      (a = .unmapFail p true ∧ s.mapped p) ∨
      (∃ v, (a = .zap v ∨ ∃ b, a = .reuse v b) ∧ (s.pte v).page? = some p ∧ s.only v p) ∨
      ∃ t v, a = .map t ∧ s.thread t = .got v e p ∧ s.pte v = .swap e := by
  cases he with
  -- a page that is put under a key was under none
  | @add q e' hq hcache =>
    have hne : p ≠ q := by
      intro hc
      rw [hc, h.copied hq] at hp
      exact absurd hp (by simp)
    exact Or.inl (by simpa [Function.update_of_ne hne] using hp)
  | @insert t v e' b q ht hc hq =>
    have hne : p ≠ q := by
      intro hc
      rw [hc, hq.2.1] at hp
      exact absurd hp (by simp)
    exact Or.inl (by simpa [Function.update_of_ne hne] using hp)
  | @reuseFree v b q d e' hv honly hlock hq =>
    by_cases hc : p = q
    · subst hc
      exact Or.inr (Or.inr (Or.inr (Or.inl ⟨v, Or.inr ⟨b, rfl⟩, by rw [hv]; rfl, honly⟩)))
    · exact Or.inl (by simpa [Function.update_of_ne hc] using hp)
  | @zapFree v q d e' hv honly hlock hq =>
    by_cases hc : p = q
    · subst hc
      exact Or.inr (Or.inr (Or.inr (Or.inl ⟨v, Or.inl rfl, by rw [hv]; rfl, honly⟩)))
    · exact Or.inl (by simpa [Function.update_of_ne hc] using hp)
  | @unmapFree q e' hq hm hq' =>
    by_cases hc : p = q
    · subst hc
      exact Or.inr (Or.inr (Or.inl ⟨rfl, hm⟩))
    · exact Or.inl (by simpa [Function.update_of_ne hc] using hp)
  | @remove q e' hq hm hheld hq' =>
    by_cases hc : p = q
    · subst hc
      exact Or.inr (Or.inl ⟨rfl, hm, hheld⟩)
    · exact Or.inl (by simpa [Function.update_of_ne hc] using hp)
  | @map t v e' q ht hlock hq hv =>
    by_cases hc : p = q
    · subst hc
      obtain rfl := Option.some.inj (hp.symm.trans hq)
      exact Or.inr (Or.inr (Or.inr (Or.inr ⟨t, v, rfl, ht, hv⟩)))
    · exact Or.inl (by simpa [Function.update_of_ne hc] using hp)
  | _ => exact Or.inl hp

/-- A page stays copied until it is added or adding it fails. -/
theorem Effect.copied_keep (he : Effect s a s') {p : P} {e : Entry} (hp : s.phase p = .copied e) :
    s'.phase p = .copied e ∨ s'.priv p = some e ∨
      ∃ ok, a = .add p ok ∧ (ok = false ∨ s.cache e ≠ none) := by
  cases he with
  | @copy v e' q d hv honly hpriv hphase =>
    have hne : p ≠ q := by
      intro hc
      rw [hc, hphase] at hp
      exact absurd hp (by simp)
    exact Or.inl (by simpa [Function.update_of_ne hne] using hp)
  | @add q e' hq hcache =>
    by_cases hc : p = q
    · subst hc
      obtain rfl := Phase.copied.inj (hp.symm.trans hq)
      exact Or.inr (Or.inl (by simp))
    · exact Or.inl (by simpa [Function.update_of_ne hc] using hp)
  | @addFail q ok e' hq hfail =>
    by_cases hc : p = q
    · subst hc
      obtain rfl := Phase.copied.inj (hp.symm.trans hq)
      exact Or.inr (Or.inr ⟨ok, rfl, hfail⟩)
    · exact Or.inl (by simpa [Function.update_of_ne hc] using hp)
  -- the other steps of reclaim start elsewhere
  | pass hq | unmap hq | unmapKeep hq | unmapFree hq | pageout hq =>
    have hne : p ≠ _ := fun hc => by
      rw [hc, hq] at hp
      exact absurd hp (by simp)
    exact Or.inl (by simpa [Function.update_of_ne hne] using hp)
  | remove hq | putback hq =>
    have hne : p ≠ _ := fun hc => by
      rcases hq with hq | hq <;> rw [hc, hq] at hp <;> exact absurd hp (by simp)
    exact Or.inl (by simpa [Function.update_of_ne hne] using hp)
  | _ => exact Or.inl hp

/-- A swap-in gets past the reading by freeing the COMEX page. -/
theorem Effect.beingRead_keep (he : Effect s a s') {e : Entry} (h : s.beingRead e) :
    s'.beingRead e ∨ s'.out e = false := by
  obtain ⟨t, hfill, hentry⟩ := h
  -- a swap-in that is elsewhere is another one
  have hne : ∀ {u : T} {f : Fault V P}, s.thread u = f → f.isFilling = false → t ≠ u := by
    rintro u f hu hf rfl
    rw [hu, hf] at hfill
    exact absurd hfill (by simp)
  cases he with
  | @read u v e' b q hu =>
    refine Or.inl ⟨t, ?_⟩
    by_cases htu : t = u
    · subst htu
      rw [hu] at hentry
      simpa [Fault.isFilling, Fault.source?] using hentry
    · simpa [Function.update_of_ne htu] using ⟨hfill, hentry⟩
  | @giveFirst u v e' q hu | @giveSecond u v e' q hu =>
    by_cases htu : t = u
    · subst htu
      rw [hu] at hentry
      obtain rfl := Option.some.inj hentry
      exact Or.inr (by simp)
    · exact Or.inl ⟨t, by simpa [Function.update_of_ne htu] using ⟨hfill, hentry⟩⟩
  | fault hu | hit hu | miss hu | findFirst hu | findSecond hu | insert hu | noMemFirst hu
  | noMemSecond hu | map hu | mapFail hu | giveUp hu =>
    exact Or.inl ⟨t, by simpa [Function.update_of_ne (hne hu rfl)] using ⟨hfill, hentry⟩⟩
  | _ => exact Or.inl ⟨t, hfill, hentry⟩

/-! ### Entries of their own -/

/-- Every page on its way out has an entry of its own, which nobody refers to yet. -/
structure Outbound (s : Swap V P T α) : Prop where
  cached : Cached s
  unused : ∀ {p : P} {e : Entry}, s.Pending p e → s.Unused e ∧ s.out e = true
  inj : ∀ {p q : P} {e : Entry}, s.Pending p e → s.Pending q e → p = q

namespace Outbound

omit [DecidableEq V] [DecidableEq P] [DecidableEq T] [Fintype V] in
theorem init (content : P → α) (store : Entry → α) (seen : V → α) :
    Outbound (Swap.init content store seen : Swap V P T α) where
  cached := Cached.init content store seen
  unused := fun h => by simp [Pending, Swap.init] at h
  inj := fun h => by simp [Pending, Swap.init] at h

/-- What `add_to_swap` is handed is not the entry of a page on its way out. -/
theorem pending_back (h : Outbound s) (he : Effect s a s') {p : P} {e : Entry}
    (hp : s'.Pending p e) : s.Pending p e ∧ (∀ v, a ≠ .copy v e) ∨
      ∃ v d, a = .copy v e ∧ s.pte v = .page p d ∧ s.only v p ∧ s.out e = false ∧
        ∀ q, ¬ s.Pending q e := by
  rcases he.pending_back hp with hold | ⟨v, d, ha, hv, honly, hout⟩
  · refine Or.inl ⟨hold, ?_⟩
    rintro v rfl
    cases he with
    | copy _ _ _ _ _ hout => exact absurd (hout.symm.trans (h.unused hold).2) (by simp)
  · exact Or.inr ⟨v, d, ha, hv, honly, hout,
      fun q hq => absurd (hout.symm.trans (h.unused hq).2) (by simp)⟩

/-- A step that hands out only entries nobody refers to keeps this. -/
theorem step (h : Outbound s) (he : Effect s a s')
    (hnew : ∀ v e, a = .copy v e → s.out e = false → s.Unused e) : Outbound s' := by
  refine ⟨h.cached.step he, fun {p e} hp => ?_, fun {p q e} hp hq => ?_⟩
  · rcases h.pending_back he hp with ⟨hold, -⟩ | ⟨v, d, rfl, -, -, hout, -⟩
    · obtain ⟨hun, hout⟩ := h.unused hold
      refine ⟨he.unused hun fun q ha hpriv hm => ?_, he.out_keep hout hun⟩
      -- only the page itself could be unmapped to its entry
      obtain rfl := h.inj hold (Or.inr ⟨hpriv, hm⟩)
      subst ha
      exact not_pending_of_unmap he e hp
    · refine ⟨he.unused (hnew v e rfl hout) fun q hq => by simp at hq, ?_⟩
      cases he with
      | copy => simp
  · rcases h.pending_back he hp with ⟨hp, -⟩ | ⟨v, d, rfl, hv, -, -, hnone⟩
    · rcases h.pending_back he hq with ⟨hq, -⟩ | ⟨v, d, rfl, -, -, -, hnone⟩
      · exact h.inj hp hq
      · exact absurd hp (hnone p)
    · rcases h.pending_back he hq with ⟨hq, -⟩ | ⟨v', d', ha, hv', -⟩
      · exact absurd hq (hnone q)
      · obtain ⟨rfl, -⟩ := SwapStep.copy.inj ha
        exact (Pte.page.inj (hv.symm.trans hv')).1

end Outbound

end Swap
end Comex
