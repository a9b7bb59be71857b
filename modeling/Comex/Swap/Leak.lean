import Comex.Swap.Turns

/-!
# Leaked COMEX pages

A COMEX page is given back in two places only: after the read of a swap-in that
missed the swap cache, and when a swap PTE is zapped.  `swapcache_free` and
`swap_free` do nothing for it.  So a COMEX page is lost when `add_to_swap` fails
after it has obtained the page, and when the page that was copied to it leaves the
swap cache, or loses its last mapping on the way there, other than by reclaim.

## Main definitions

* `Swap.NoLeak` — what is handed out is named.
* `Turns.Frugal` — the steps that drop no last name.

## Main results

* `Turns.reach_noLeak` — **frugal runs leak nothing.**
* `Swap.leak` — a failing `add_to_swap` leaks.
-/

namespace Comex

namespace Swap

variable {V P T α : Type} [DecidableEq V] [DecidableEq P] [DecidableEq T] [Fintype V]
  {s s' : Swap V P T α} {a : SwapStep V P T α}

/-- Every COMEX page handed out is named by a swap PTE or a swap cache entry, or `add_to_swap`
is at work with it. -/
def NoLeak (s : Swap V P T α) : Prop := ∀ e, s.out e = true →
  (∃ v, s.pte v = .swap e) ∨ (∃ p, s.cache e = some p) ∨ ∃ p, s.phase p = .copied e

/-- A swap PTE names the entry, or a page that is still mapped is on its way to it. -/
def Anchored (s : Swap V P T α) (e : Entry) : Prop := (∃ v, s.pte v = .swap e) ∨
  ∃ p, (s.phase p = .copied e ∨ s.priv p = some e) ∧ s.mapped p

/-- A COMEX page is handed out in `add_to_swap` only. -/
theorem Effect.out_back (he : Effect s a s') {e : Entry} (hout : s'.out e = true) :
    s.out e = true ∨ ∃ p, s'.phase p = .copied e ∧ s'.mapped p := by
  cases he with
  | @copy v e' p d hv =>
    simp only [moveOut_out, Function.update_apply] at hout
    split_ifs at hout with hc
    · exact Or.inr ⟨p, by simp [hc], v, by rw [moveOut_pte, hv]; rfl⟩
    · exact Or.inl hout
  | zapSwap | giveFirst | giveSecond =>
    simp only [setThread_out, free_out, setPte_out, Function.update_apply] at hout
    split_ifs at hout
    exact Or.inl hout
  | _ => exact Or.inl hout

end Swap

namespace Turns

variable {V P T α : Type} [DecidableEq V] [DecidableEq P] [DecidableEq T]

/-- What `do_swap_page` maps was put into the swap cache by a swap-in, no longer by `add_to_swap`,
and that swap-in has come to its free of the COMEX page; or another PTE names the entry. -/
def MayMap (s : Turns V P T α) : Fault V P → Prop
  | .got v e p => s.swap.priv p = some e → s.swap.pte v = .swap e →
    s.dropped e = true ∧ ¬ s.swap.beingRead e ∨ ∃ w, w ≠ v ∧ s.swap.pte w = .swap e
  | _ => True

/-- The steps that drop no last name. -/
def Frugal (s : Turns V P T α) : SwapStep V P T α → Prop
  -- `add_to_swap` does not fail once it has obtained the COMEX page
  | .add p ok => ok = true ∧ ∀ e ∈ (s.swap.phase p).target?, s.swap.cache e = none
  -- a page that `add_to_swap` is at work with, or that is in the swap cache, keeps a mapping
  | .zap v | .newPage v _ _ => ∀ p ∈ (s.swap.pte v).page?, s.swap.only v p →
    (s.swap.phase p).target? = none ∧ s.swap.priv p = none
  -- `do_wp_page` finds the page outside the swap cache
  | .reuse v _ => ∀ p ∈ (s.swap.pte v).page?, s.swap.priv p = none
  -- `try_to_free_swap` is not called after `try_to_unmap` has failed
  | .unmapFail _ free => free = false
  | .map t => s.MayMap (s.swap.thread t)
  | _ => True

section Decidable

variable [Fintype V] [Fintype T]

instance (s : Turns V P T α) : (f : Fault V P) → Decidable (s.MayMap f)
  | .got _ _ _ => inferInstanceAs (Decidable (_ → _ → _ ∧ ¬ _ ∨ _))
  | .idle | .looking .. | .reading .. | .inserted .. | .filled .. =>
    inferInstanceAs (Decidable True)

instance (s : Turns V P T α) : (a : SwapStep V P T α) → Decidable (s.Frugal a)
  | .add p _ => inferInstanceAs (Decidable (_ ∧ ∀ e ∈ (s.swap.phase p).target?, _))
  | .zap v | .newPage v _ _ => inferInstanceAs (Decidable (∀ p ∈ (s.swap.pte v).page?, _ → _ ∧ _))
  | .reuse v _ => inferInstanceAs (Decidable (∀ p ∈ (s.swap.pte v).page?, _))
  | .unmapFail _ free => inferInstanceAs (Decidable (free = false))
  | .map t => inferInstanceAs (Decidable (s.MayMap (s.swap.thread t)))
  | .write .. | .fork .. | .copy .. | .pass _ | .unmap _ | .pageout _ | .remove _ | .putback _
  | .fault .. | .lookup _ | .find _ | .insert .. | .noMem _ | .read _ | .giveBack _ | .giveUp _ =>
    inferInstanceAs (Decidable True)

end Decidable

/-! ### The invariant -/

/-- What a frugal run keeps of the COMEX pages handed out. -/
structure Kept (s : Turns V P T α) : Prop where
  cached : s.swap.Cached
  anchored : ∀ {e : Entry}, s.swap.out e = true → s.swap.Anchored e
  copied : ∀ {p : P} {e : Entry}, s.swap.phase p = .copied e → s.swap.mapped p
  /-- What is under a key whose page has been dropped is being read in, if its COMEX page is not
  given back yet; or the COMEX page has been handed out again. -/
  reading : ∀ {e : Entry} {p : P}, s.swap.out e = true → s.swap.cache e = some p →
    s.dropped e = true → s.swap.beingRead e ∨ ∃ q, s.swap.phase q = .copied e

namespace Kept

omit [DecidableEq V] [DecidableEq P] [DecidableEq T] in
theorem init (content : P → α) (store : Entry → α) (seen : V → α) :
    Kept (Turns.init content store seen : Turns V P T α) where
  cached := Swap.Cached.init content store seen
  anchored := fun h => by simp [Turns.init, Swap.init] at h
  copied := fun h => by simp [Turns.init, Swap.init] at h
  reading := fun h => by simp [Turns.init, Swap.init] at h

variable [Fintype V] {s : Turns V P T α} {t : Swap V P T α} {a : SwapStep V P T α}

/-- A page on its way out keeps a mapping until it is unmapped. -/
theorem mapped_keep (he : s.swap.Effect a t) (hq : s.Frugal a) {p : P} {e : Entry}
    (hp : s.swap.phase p = .copied e ∨ s.swap.priv p = some e) (hm : s.swap.mapped p) :
    t.mapped p ∨ a = .unmap p := by
  rcases he.mapped_keep hm with hm' | ha | ⟨v, ha, hv, honly⟩
  · exact Or.inl hm'
  · exact Or.inr ha
  · -- no zap and no new page takes the last mapping
    have hlast : (s.swap.phase p).target? = none ∧ s.swap.priv p = none := by
      rcases ha with rfl | ⟨q, b, rfl⟩
      · exact hq p hv honly
      · exact hq p hv honly
    rcases hp with hp | hp
    · rw [hp] at hlast
      exact absurd hlast.1 (by simp [Phase.target?])
    · exact absurd (hp.symm.trans hlast.2) (by simp)

/-- A page being added stays copied and mapped until it is in the swap cache. -/
theorem copied_keep (h : Kept s) (he : s.swap.Effect a t) (hq : s.Frugal a) {p : P} {e : Entry}
    (hp : s.swap.phase p = .copied e) :
    (t.phase p = .copied e ∨ a = .add p true ∧ t.priv p = some e) ∧ t.mapped p := by
  refine ⟨?_, ?_⟩
  · rcases he.copied_keep hp with hp' | hpriv | ⟨ok, rfl, hfail⟩
    · exact Or.inl hp'
    · refine Or.inr ⟨?_, hpriv⟩
      rcases he.cache_back (((he.linked h.cached) e p).mpr hpriv) with hc | ⟨ha, -⟩ |
        ⟨u, v, b, rfl, -, hfresh⟩
      · have hpriv' := (h.cached.linked e p).mp hc
        exact absurd ((h.cached.copied hp).symm.trans hpriv') (by simp)
      · exact ha
      · exact absurd (hfresh.2.2.1.symm.trans hp) (by simp)
    · obtain ⟨hok, hcache⟩ := hq
      rcases hfail with hfail | hfail
      · rw [hok] at hfail
        exact absurd hfail (by simp)
      · exact absurd (hcache e (by rw [hp]; rfl)) hfail
  · rcases mapped_keep he hq (Or.inl hp) (h.copied hp) with hm | rfl
    · exact hm
    · cases he with
      | unmap hphase => exact absurd (hphase.symm.trans hp) (by simp)

/-- While a swap PTE names an entry that is not freed, something still does. -/
theorem anchored_of_swap (h : Kept s) (he : s.swap.Effect a t) (hq : s.Frugal a) {v : V}
    {e : Entry} (hv : s.swap.pte v = .swap e) (hout : s.swap.out e = true)
    (hout' : t.out e = true) : t.Anchored e := by
  rcases he.swap_keep hv with hv' | rfl | ⟨u, p, rfl, hu, hpriv⟩
  · exact Or.inl ⟨v, hv'⟩
  · -- the zap has freed it
    cases he with
    | zapPage hw | zapFree hw =>
      rw [hv] at hw
      exact absurd hw (by simp)
    | zapSwap hw =>
      obtain rfl := Pte.swap.inj (hv.symm.trans hw)
      exact absurd hout' (by simp)
  · have hguard : s.MayMap (.got v e p) := by
      rw [← hu]
      exact hq
    rcases hguard hpriv hv with ⟨hdropped, hnone⟩ | ⟨w, hne, hw⟩
    · -- nobody is reading the page in, so the COMEX page has been handed out again
      rcases h.reading hout ((h.cached.linked e p).mpr hpriv) hdropped with hread | ⟨q, hq'⟩
      · exact absurd hread hnone
      · obtain ⟨hp | ⟨ha, -⟩, hm⟩ := h.copied_keep he hq hq'
        · exact Or.inr ⟨q, Or.inl hp, hm⟩
        · exact absurd ha (by simp)
    · rcases he.swap_keep hw with hw' | hc | ⟨u', p', hc, hu', -⟩
      · exact Or.inl ⟨w, hw'⟩
      · exact absurd hc (by simp)
      · obtain rfl := SwapStep.map.inj hc
        exact absurd (Fault.got.inj (hu'.symm.trans hu)).1 hne

/-- While a page that is mapped is on its way to an entry, something names the entry. -/
theorem anchored_of_page (h : Kept s) (he : s.swap.Effect a t) (hq : s.Frugal a) {p : P}
    {e : Entry} (hp : s.swap.phase p = .copied e ∨ s.swap.priv p = some e)
    (hm : s.swap.mapped p) (hout : s.swap.out e = true) (hout' : t.out e = true) :
    t.Anchored e := by
  rcases mapped_keep he hq hp hm with hm' | rfl
  · rcases hp with hp | hp
    · exact Or.inr ⟨p, (h.copied_keep he hq hp).1.imp id And.right, hm'⟩
    · rcases he.priv_keep h.cached hp with hp' | ⟨-, hno, -⟩ | ⟨rfl, -⟩ | ⟨v, ha, hv, honly⟩ |
        ⟨u, v, -, -, hv⟩
      · exact Or.inr ⟨p, Or.inr hp', hm'⟩
      · exact absurd hm hno
      · exact absurd (show true = false from hq) (by simp)
      · -- neither a zap nor `do_wp_page` takes it out of the swap cache
        have hnone : s.swap.priv p = none := by
          rcases ha with rfl | ⟨b, rfl⟩
          · exact (hq p hv honly).2
          · exact hq p hv
        exact absurd (hnone.symm.trans hp) (by simp)
      · exact h.anchored_of_swap he hq hv hout hout'
  · -- the PTEs that mapped the page name the entry now
    obtain ⟨w, hw⟩ := hm
    cases he with
    | unmap hphase hpriv =>
      refine Or.inl ⟨w, ?_⟩
      rw [Swap.setPhase_pte, Swap.unmapAll_pte, if_pos hw]
      rcases hp with hp | hp
      · rw [hphase] at hp
        exact absurd hp (by simp)
      · rw [Option.some.inj (hpriv.symm.trans hp)]

theorem step_anchored (h : Kept s) (he : s.swap.Effect a t) (hq : s.Frugal a) {e : Entry}
    (hout' : t.out e = true) : t.Anchored e := by
  rcases he.out_back hout' with hout | ⟨p, hp, hm⟩
  · rcases h.anchored hout with ⟨v, hv⟩ | ⟨p, hp, hm⟩
    · exact h.anchored_of_swap he hq hv hout hout'
    · exact h.anchored_of_page he hq hp hm hout hout'
  · exact Or.inr ⟨p, Or.inl hp, hm⟩

theorem step_copied (h : Kept s) (he : s.swap.Effect a t) (hq : s.Frugal a) {p : P} {e : Entry}
    (hp : t.phase p = .copied e) : t.mapped p := by
  rcases he.copied_back hp with hold | ⟨v, d, rfl, hv, -⟩
  · exact (h.copied_keep he hq hold).2
  · cases he with
    | copy => exact ⟨v, by rw [Swap.moveOut_pte, hv]; rfl⟩

theorem step_reading (h : Kept s) (he : s.swap.Effect a t) (hq : s.Frugal a) {e : Entry} {p : P}
    (hout' : t.out e = true) (hp : t.cache e = some p) (hd : (s.record t a).dropped e = true) :
    t.beingRead e ∨ ∃ q, t.phase q = .copied e := by
  obtain ⟨hdropped, hadd⟩ := dropped_back he hp hd
  rcases he.out_back hout' with hout | ⟨q, hq', -⟩
  · rcases he.cache_back hp with hold | ⟨ha, -⟩ | ⟨u, v, b, rfl, hu, -⟩
    · rcases h.reading hout hold hdropped with hread | ⟨q, hcopied⟩
      · rcases he.beingRead_keep hread with hread' | hno
        · exact Or.inl hread'
        · exact absurd (hno.symm.trans hout') (by simp)
      · rcases (h.copied_keep he hq hcopied).1 with hcopied' | ⟨rfl, hpriv⟩
        · exact Or.inr ⟨q, hcopied'⟩
        · -- the key of a page that is added is its own
          obtain rfl := (he.linked h.cached).inj hpriv (((he.linked h.cached) e p).mp hp)
          exact absurd rfl hadd
    · exact absurd ha hadd
    · refine Or.inl ⟨u, ?_⟩
      cases he with
      | insert hu' =>
        obtain ⟨rfl, rfl, rfl⟩ := Fault.reading.inj (hu.symm.trans hu')
        simp [Fault.isFilling, Fault.source?]
  · exact Or.inr ⟨q, hq'⟩

/-- Every frugal step keeps the COMEX pages named. -/
theorem step (h : Kept s) (he : s.swap.Effect a t) (hq : s.Frugal a) : Kept (s.record t a) where
  cached := by
    rw [record_swap]
    exact h.cached.step he
  anchored := by
    intro e hout
    rw [record_swap] at hout ⊢
    exact h.step_anchored he hq hout
  copied := by
    intro p e hp
    rw [record_swap] at hp ⊢
    exact h.step_copied he hq hp
  reading := by
    intro e p hout hp hd
    rw [record_swap] at hout hp ⊢
    exact h.step_reading he hq hout hp hd

end Kept

variable [Fintype V] [Fintype T]

/-- **Frugal runs leak nothing.**  Every COMEX page that is handed out is named by a swap PTE or a
swap cache entry, or `add_to_swap` is at work with it, in every state such a run reaches. -/
theorem reach_noLeak {content : P → α} {store : Entry → α} {seen : V → α} {s : Turns V P T α}
    (h : Reach content store seen Frugal s) : s.swap.NoLeak := by
  have hkept : Kept s := by
    refine h.invariant ?_ fun s a s' _ hs hok hstep => ?_
    · rintro s rfl
      exact Kept.init content store seen
    · obtain ⟨t, ht, rfl⟩ := Option.map_eq_some_iff.mp hstep
      exact hs.step (Swap.step_effect ht) hok
  intro e hout
  rcases hkept.anchored hout with hv | ⟨p, hp | hp, -⟩
  · exact Or.inl hv
  · exact Or.inr (Or.inr ⟨p, hp⟩)
  · exact Or.inr (Or.inl ⟨p, (hkept.cached.linked e p).mpr hp⟩)

/-- A page whose first unmapping fails, swapped out, shared by `fork`, mapped by one process from
the swap cache and read in by the other, stored to and swapped out again. -/
theorem reach_noLeak_readIn : ∃ s : Turns Bool ℕ Unit ℕ,
    Reach (fun _ => 0) (fun _ => 0) (fun _ => 0) Frugal s ∧
      (s.swap.out (.atHome 6) = true ∧ s.swap.out (.atHome 5) = false) ∧ s.swap.NoLeak := by
  obtain ⟨s, hs, hend⟩ := Machine.exists_reach_of_exec
    (init (fun _ => 0) (fun _ => 0) (fun _ => 0) : Turns Bool ℕ Unit ℕ) Frugal next
    (fun s => s.swap.out (.atHome 6) = true ∧ s.swap.out (.atHome 5) = false)
    [.newPage false 0 1, .copy false (.atHome 5), .add 0 true, .unmapFail 0 false, .pass 0,
      .unmap 0, .pageout 0, .fork false true, .fault () true, .lookup (), .map (), .putback 0,
      .fault () false, .lookup (), .insert () 1, .read (), .giveBack (), .find (), .map (),
      .reuse false 7, .copy false (.atHome 6), .add 1 true] (by decide)
  exact ⟨s, hs, hend, reach_noLeak hs⟩

end Turns

/-- **A COMEX page leaks when `add_to_swap` fails after the copy.** -/
theorem Swap.leak : ¬ ∀ s : Swap Unit Unit Unit ℕ,
    Swap.Reach (fun _ => 0) (fun _ => 0) (fun _ => 0) Machine.free s → NoLeak s := by
  intro hall
  obtain ⟨s, hs, hout, hpte, hcache, hphase⟩ := Machine.exists_reach_of_exec
    (init (fun _ => 0) (fun _ => 0) (fun _ => 0) : Swap Unit Unit Unit ℕ) Machine.free step
    (fun s => s.out (.atHome 5) = true ∧ (∀ v, s.pte v ≠ .swap (.atHome 5)) ∧
      s.cache (.atHome 5) = none ∧ ∀ p, s.phase p ≠ .copied (.atHome 5))
    [.newPage () () 1, .copy () (.atHome 5), .add () false] (by decide)
  rcases hall s hs _ hout with ⟨v, hv⟩ | ⟨p, hp⟩ | ⟨p, hp⟩
  · exact hpte v hv
  · rw [hcache] at hp
    exact absurd hp (by simp)
  · exact hphase p hp

end Comex
