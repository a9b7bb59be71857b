import Comex.Swap.Pending

/-!
# Lost updates

`add_to_swap` copies a page while it is still mapped and writable, and `pageout`
clears the dirty bit of a COMEX page without writing it.  What the COMEX page
holds is what the process last saw as long as nobody stores between the copy and
the unmapping, and as long as a COMEX page still referred to is not handed out.  A
store through `do_wp_page` takes the page out of the swap cache first, so it loses
nothing.

## Main definitions

* `Swap.NoLostUpdate` — the COMEX page of a swap PTE holds what the PTE last mapped.
* `Swap.Quiet` — no store to a page on its way out, no page handed out twice.

## Main results

* `Swap.reach_noLostUpdate` — **quiet runs lose no update.**
* `Swap.lost_update` — a store between copy and unmapping is lost.
-/

namespace Comex
namespace Swap

variable {V P T α : Type} [DecidableEq V] [DecidableEq P] [DecidableEq T] [Fintype V]
  {s s' : Swap V P T α} {a : SwapStep V P T α}

/-- What a swap-in of a PTE would read is what the page held when it was unmapped from it. -/
def NoLostUpdate (s : Swap V P T α) : Prop := ∀ v e, s.pte v = .swap e → s.store e = s.seen v

/-- No store through a writable PTE to a page that is being added or is in the swap cache; only
entries that nobody refers to are handed out. -/
def Quiet (s : Swap V P T α) : SwapStep V P T α → Prop
  | .write v _ => ∀ p ∈ (s.pte v).page?, s.priv p = none ∧ (s.phase p).target? = none
  | .copy _ e => s.Unused e
  | _ => True

instance [Fintype T] (s : Swap V P T α) : (a : SwapStep V P T α) → Decidable (s.Quiet a)
  | .write v _ => inferInstanceAs (Decidable (∀ p ∈ (s.pte v).page?, _ ∧ _))
  | .copy _ e => inferInstanceAs (Decidable (s.Unused e))
  | .newPage .. | .reuse .. | .fork .. | .zap _ | .add .. | .pass _ | .unmap _ | .unmapFail ..
  | .pageout _ | .remove _ | .putback _ | .fault .. | .lookup _ | .find _ | .insert .. | .noMem _
  | .read _ | .giveBack _ | .map _ | .giveUp _ => inferInstanceAs (Decidable True)

/-- What COMEX pages hold changes only in `add_to_swap`. -/
theorem Effect.store_back (he : Effect s a s') (e : Entry) : s'.store e = s.store e ∨
    ∃ v p d, a = .copy v e ∧ s.pte v = .page p d ∧ s'.store e = s.content p := by
  cases he with
  | copy hv =>
    simp only [moveOut_store, Function.update_apply]
    split_ifs with hc
    · exact Or.inr ⟨_, _, _, by rw [hc], hv, rfl⟩
    · exact Or.inl rfl
  | _ => exact Or.inl rfl

/-- What a page holds changes in a store, which leaves no page of `do_wp_page` in the swap
cache, in fresh pages, and when it is read in. -/
theorem Effect.content_back (he : Effect s a s') (p : P) : s'.content p = s.content p ∨
    (∃ v b, a = .write v b ∧ (s.pte v).page? = some p) ∨
      (∃ v b, a = .reuse v b ∧ ¬ s.locked p ∧ s'.priv p = none) ∨ s.fresh p ∨
      ∃ t v e b, s.thread t = .inserted v e b p ∧ s'.content p = s.store e := by
  cases he with
  | newPage hq hv =>
    simp only [fill_content, Function.update_apply]
    split_ifs with hc
    · exact Or.inr (Or.inr (Or.inr (Or.inl (by rw [hc]; exact hq))))
    · exact Or.inl rfl
  | reuse hv hp hlock hpriv =>
    simp only [storeTo_content, Function.update_apply]
    split_ifs with hc
    · exact Or.inr (Or.inr (Or.inl ⟨_, _, rfl, by rw [hc]; exact hlock, by rw [hc]; exact hpriv⟩))
    · exact Or.inl rfl
  | reuseFree hv hp hlock hpriv =>
    simp only [storeTo_content, setDirty_content, deleteFromSwapCache_content,
      Function.update_apply]
    split_ifs with hc
    · exact Or.inr (Or.inr (Or.inl ⟨_, _, rfl, by rw [hc]; exact hlock, by simp [hc]⟩))
    · exact Or.inl rfl
  | write hv hp =>
    simp only [storeTo_content, Function.update_apply]
    split_ifs with hc
    · exact Or.inr (Or.inl ⟨_, _, rfl, by rw [hv, hc]; rfl⟩)
    · exact Or.inl rfl
  | read ht =>
    simp only [setThread_content, readIn_content, Function.update_apply]
    split_ifs with hc
    · exact Or.inr (Or.inr (Or.inr (Or.inr ⟨_, _, _, _, by rw [hc]; exact ht, rfl⟩)))
    · exact Or.inl rfl
  | _ => exact Or.inl rfl

/-- A page on its way out has an entry of its own, with its content in the COMEX page. -/
structure Faithful (s : Swap V P T α) : Prop where
  outbound : Outbound s
  content : ∀ {p : P} {e : Entry}, s.Pending p e → s.store e = s.content p
  seen : NoLostUpdate s

namespace Faithful

omit [DecidableEq V] [DecidableEq P] [DecidableEq T] [Fintype V] in
theorem init (content : P → α) (store : Entry → α) (seen : V → α) :
    Faithful (Swap.init content store seen : Swap V P T α) where
  outbound := Outbound.init content store seen
  content := fun h => by simp [Pending, Swap.init] at h
  seen := fun v e h => by simp [Swap.init] at h

omit [DecidableEq V] [DecidableEq P] [DecidableEq T] [Fintype V] in
/-- `add_to_swap` holds the page lock. -/
theorem locked_of_copied {p : P} {e : Entry} (h : s.phase p = .copied e) : s.locked p :=
  Or.inl (by rw [h]; rfl)

/-- A page that stays on its way out keeps its content. -/
theorem content_eq (h : Faithful s) (he : Effect s a s') (hq : s.Quiet a) {p : P} {e : Entry}
    (hp : s.Pending p e) (hp' : s'.Pending p e) (hcopy : ∀ v, a ≠ .copy v e) :
    s'.store e = s'.content p := by
  have hstore := h.content hp
  have hkeep : s'.store e = s.store e :=
    (he.store_back e).resolve_right fun ⟨v, _, _, ha, _⟩ => hcopy v ha
  rw [hkeep]
  rcases he.content_back p with hc | ⟨v, b, rfl, hv⟩ | ⟨v, b, rfl, hlock, hnone⟩ | hfresh |
    ⟨t, v, e', b, ht, hc⟩
  · rw [hc, hstore]
  · -- a quiet store does not meet the page
    obtain ⟨hpriv, hphase⟩ := hq p hv
    rcases hp with hc | ⟨hc, -⟩
    · rw [hc] at hphase
      exact absurd hphase (by simp [Phase.target?])
    · rw [hpriv] at hc
      exact absurd hc (by simp)
  · -- `do_wp_page` has taken the page out of the swap cache, and `add_to_swap` locks it
    rcases hp' with hc | ⟨hc, -⟩
    · rcases he.copied_back hc with hold | ⟨w, d, ha, -⟩
      · exact absurd (locked_of_copied hold) hlock
      · exact absurd ha (by simp)
    · exact absurd (hnone.symm.trans hc) (by simp)
  · rcases hp with hc | ⟨hc, -⟩
    · rw [hfresh.2.2.1] at hc
      exact absurd hc (by simp)
    · rw [hfresh.2.1] at hc
      exact absurd hc (by simp)
  · -- what is read in for the page is what its entry holds
    obtain ⟨hpriv, hphase⟩ := h.outbound.cached.inserted ht
    rcases hp with hp | ⟨hp, -⟩
    · rw [hphase] at hp
      exact absurd hp (by simp)
    · obtain rfl := Option.some.inj (hpriv.symm.trans hp)
      exact hc.symm

/-- The COMEX page of an entry in use is not written. -/
theorem seen_eq (h : Faithful s) (he : Effect s a s') (hq : s.Quiet a) {v : V} {e : Entry}
    (hv : s'.pte v = .swap e) : s'.store e = s'.seen v := by
  have hkeep : ∀ w, s.pte w = .swap e → s'.store e = s.store e := by
    intro w hw
    apply (he.store_back e).resolve_right
    rintro ⟨u, p, d, rfl, -, -⟩
    exact hq.1 w hw
  -- the PTE was there, or has just been unmapped, or is a copy of one
  rcases he.swap_back hv with ⟨hold, hs⟩ | ⟨p, rfl, hpriv, hm, hs⟩ | ⟨w, -, hw, hs⟩
  · rw [hkeep v hold, hs]
    exact h.seen v e hold
  · have hsame : s'.store e = s.store e :=
      (he.store_back e).resolve_right fun ⟨_, _, _, ha, _⟩ => by cases ha
    rw [hsame, hs, h.content (Or.inr ⟨hpriv, v, hm⟩)]
  · rw [hkeep w hw, hs]
    exact h.seen w e hw

theorem step (h : Faithful s) (he : Effect s a s') (hq : s.Quiet a) : Faithful s' := by
  refine ⟨h.outbound.step he ?_, fun {p e} hp => ?_, fun v e hv => h.seen_eq he hq hv⟩
  · rintro v e rfl -
    exact hq
  · rcases h.outbound.pending_back he hp with ⟨hold, hcopy⟩ | ⟨v, d, rfl, hv, -⟩
    · exact h.content_eq he hq hold hp hcopy
    · cases he with
      | copy hv' =>
        obtain ⟨rfl, -⟩ := Pte.page.inj (hv'.symm.trans hv)
        simp

end Faithful

/-- **Quiet runs lose no update**: the COMEX page that a swap-in of any PTE would read holds
what the process's page held when it was last unmapped. -/
theorem reach_noLostUpdate [Fintype T] {content : P → α} {store : Entry → α} {seen : V → α}
    {s : Swap V P T α} (h : Reach content store seen Quiet s) : NoLostUpdate s := by
  refine (h.invariant (I := Faithful) ?_ ?_).seen
  · rintro s rfl
    exact Faithful.init content store seen
  · intro s a s' _ hinv hok hs
    exact hinv.step (step_effect hs) hok

/-- A page stored to, copied, unmapped and dropped. -/
theorem reach_noLostUpdate_dropped : ∃ s : Swap Unit ℕ Unit ℕ,
    Reach (fun _ => 0) (fun _ => 0) (fun _ => 0) Quiet s ∧
      (s.pte () = .swap (.atHome 5) ∧ s.cache (.atHome 5) = none ∧ s.store (.atHome 5) = 2) ∧
      NoLostUpdate s := by
  obtain ⟨s, hs, hend⟩ := Machine.exists_reach_of_exec
    (init (fun _ => 0) (fun _ => 0) (fun _ => 0) : Swap Unit ℕ Unit ℕ) Quiet step
    (fun s => s.pte () = .swap (.atHome 5) ∧ s.cache (.atHome 5) = none ∧ s.store (.atHome 5) = 2)
    [.newPage () 0 1, .write () 2, .copy () (.atHome 5), .add 0 true, .unmap 0, .pageout 0,
      .remove 0] (by decide)
  exact ⟨s, hs, hend, reach_noLostUpdate hs⟩

/-- **A store between the copy and the unmapping is lost**: the page is dropped as clean, and
the swap-in reads the older copy. -/
theorem lost_update : ¬ ∀ s : Swap Unit ℕ Unit ℕ,
    Reach (fun _ => 0) (fun _ => 0) (fun _ => 0) Machine.free s → NoLostUpdate s := by
  intro hall
  obtain ⟨s, hs, hpte, hread, hseen⟩ := Machine.exists_reach_of_exec
    (init (fun _ => 0) (fun _ => 0) (fun _ => 0) : Swap Unit ℕ Unit ℕ) Machine.free step
    (fun s => s.pte () = .swap (.atHome 5) ∧ s.store (.atHome 5) = 1 ∧ s.seen () = 2)
    [.newPage () 0 1, .copy () (.atHome 5), .add 0 true, .write () 2, .unmap 0, .pageout 0,
      .remove 0, .fault () (), .lookup (), .insert () 1, .read ()] (by decide)
  have hlost := hall s hs () _ hpte
  rw [hread, hseen] at hlost
  exact absurd hlost (by decide)

end Swap
end Comex
