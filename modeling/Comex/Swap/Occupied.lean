import Comex.Swap.FreeOnce
import Comex.Swap.Turns

/-!
# Occupied keys of the swap cache

The swap cache is keyed by the swap entry, that is by the number of the COMEX page.
Disk entries keep their number until the page has left the swap cache
(`SWAP_HAS_CACHE`); for COMEX entries `read_swap_cache_async` gives the number back
with the page just put under its key.  Until `do_swap_page` takes it out again, the
number can be handed out for another page, which then finds its key occupied.

A number is given back in time when somebody else is done with the page first:
another thread has mapped it before `read_swap_cache_async` comes to the free, or
reclaim has dropped it before the PTE is zapped.

## Main definitions

* `Exclusive` — free numbers have free keys, and look-ups find one's own page.
* `Turns.Timely` — the steps that give a number back when the others are done with it.

## Main results

* `Turns.reach_exclusive` — **in timely runs no key is ever occupied by another owner's
  page.**
* `Turns.not_exclusive` — a number is handed out while its key is occupied.
-/

namespace Comex

namespace Swap

variable {V P T α : Type} [DecidableEq V] [DecidableEq P] [DecidableEq T] [Fintype V]
  {s s' : Swap V P T α} {a : SwapStep V P T α}

/-- Where free numbers have free keys, no page is put under a key that `add_to_swap` is about to
use: the one step that could put it there is a swap-in of the entry, and a number that is free
when it is handed out has none. -/
theorem Effect.key_kept (he : Effect s a s') (ho : Outbound s)
    (hfree : ∀ e, s.out e = false → s.cache e = none)
    (hadd : ∀ p e, s.phase p = .copied e → s.cache e = none) {p : P} {e : Entry}
    (hp : s'.phase p = .copied e) : s'.cache e = none := by
  by_contra hocc
  obtain ⟨q, hq⟩ := Option.ne_none_iff_exists'.mp hocc
  have hold : s.cache e = none := by
    rcases he.copied_back hp with hold | ⟨v, d, -, -, -, hout⟩
    · exact hadd p e hold
    · exact hfree e hout
  rcases he.cache_back hq with hc | ⟨rfl, hphase⟩ | ⟨t, v, b, rfl, ht, -⟩
  · exact absurd (hc.symm.trans hold) (by simp)
  · -- only the page itself could be added, and then it is no longer copied
    rcases he.copied_back hp with hp' | ⟨v, d, ha, -⟩
    · obtain rfl := ho.inj (Or.inl hp') (Or.inl hphase)
      cases he with
      | add | addFail => simp at hp
    · exact absurd ha (by simp)
  · rcases he.copied_back hp with hp' | ⟨v, d, ha, -⟩
    · exact (ho.unused (Or.inl hp')).1.2 t (by rw [ht]; rfl)
    · exact absurd ha (by simp)

end Swap

namespace Turns

variable {V P T α : Type} [DecidableEq V] [DecidableEq P] [DecidableEq T]

/-- A free number has a free key; `add_to_swap` finds its key free; and what a swap-in
finds under its key belongs to the owner of the PTE it has read. -/
structure Exclusive (s : Turns V P T α) : Prop where
  free : ∀ e, s.swap.out e = false → s.swap.cache e = none
  add : ∀ p e, s.swap.phase p = .copied e → s.swap.cache e = none
  lookup : ∀ t e p, (s.swap.thread t).source? = some e → s.swap.cache e = some p →
    s.ofPage p = s.ofFault t

/-- The steps that give a number back when the others are done with it. -/
def Timely (s : Turns V P T α) : SwapStep V P T α → Prop
  -- a number is handed out when nobody refers to its entry
  | .copy _ e => s.swap.Unused e
  -- the last PTE of an entry is zapped when no swap-in is reading its page, and after reclaim or
  -- a swap-in has dropped the page that `add_to_swap` put into the swap cache
  | .zap v => ∀ e ∈ (s.swap.pte v).swap?,
    (∀ w, s.swap.pte w = .swap e → w = v) ∧ ¬ s.swap.beingRead e ∧ s.dropped e = true
  -- another thread has mapped the page in the meantime: no PTE names the entry any more
  | .giveBack t => ∀ e ∈ (s.swap.thread t).source?, ∀ w, s.swap.pte w ≠ .swap e
  -- a page is read in for an entry that a PTE still names
  | .insert t _ => ∀ e ∈ (s.swap.thread t).source?, ∃ w, s.swap.pte w = .swap e
  | _ => True

instance [Fintype V] [Fintype T] (s : Turns V P T α) :
    (a : SwapStep V P T α) → Decidable (s.Timely a)
  | .copy _ e => inferInstanceAs (Decidable (s.swap.Unused e))
  | .zap v => inferInstanceAs (Decidable (∀ e ∈ (s.swap.pte v).swap?,
      (∀ w, s.swap.pte w = .swap e → w = v) ∧ _ ∧ _))
  | .giveBack t => inferInstanceAs (Decidable (∀ e ∈ (s.swap.thread t).source?,
      ∀ w, s.swap.pte w ≠ .swap e))
  | .insert t _ => inferInstanceAs (Decidable (∀ e ∈ (s.swap.thread t).source?,
      ∃ w, s.swap.pte w = .swap e))
  | .newPage .. | .write .. | .reuse .. | .fork .. | .add .. | .pass _ | .unmap _ | .unmapFail ..
  | .pageout _ | .remove _ | .putback _ | .fault .. | .lookup _ | .find _ | .noMem _ | .read _
  | .map _ | .giveUp _ => inferInstanceAs (Decidable True)

/-! ### Whose key it is -/

/-- What a timely run keeps of the keys: who still names a number, and what is under its key. -/
structure Keyed (s : Turns V P T α) : Prop where
  outbound : s.swap.Outbound
  free : ∀ e, s.swap.out e = false → s.swap.cache e = none
  add : ∀ p e, s.swap.phase p = .copied e → s.swap.cache e = none
  /-- A number that a PTE names is handed out. -/
  named : ∀ {v : V} {e : Entry}, s.swap.pte v = .swap e → s.swap.out e = true
  /-- Under a key is the page of `add_to_swap`, or one that is being read in. -/
  under : ∀ {e : Entry} {p : P}, s.swap.cache e = some p → s.dropped e = false ∨ s.swap.beingRead e
  /-- What is being read in and not mapped yet has a PTE to be mapped to. -/
  read : ∀ {e : Entry} {p : P}, s.swap.beingRead e → s.swap.cache e = some p →
    ∃ w, s.swap.pte w = .swap e

namespace Keyed

omit [DecidableEq V] [DecidableEq P] [DecidableEq T] in
theorem init (content : P → α) (store : Entry → α) (seen : V → α) :
    Keyed (Turns.init content store seen : Turns V P T α) where
  outbound := Swap.Outbound.init content store seen
  free := fun _ _ => rfl
  add := fun _ _ _ => rfl
  named := fun h => by simp [Turns.init, Swap.init] at h
  under := fun h => by simp [Turns.init, Swap.init] at h
  read := fun _ h => by simp [Turns.init, Swap.init] at h

variable {s : Turns V P T α}

/-! ### When a number is given back -/

omit [DecidableEq V] [DecidableEq P] [DecidableEq T] in
/-- When `read_swap_cache_async` gives a number back, another thread has mapped the page. -/
theorem key_of_giveBack (h : Keyed s) {t : T} {v : V} {e : Entry} {b : Bool} {q : P}
    (hok : s.Timely (.giveBack t)) (ht : s.swap.thread t = .filled v e b q) :
    s.swap.cache e = none := by
  by_contra hocc
  obtain ⟨p, hp⟩ := Option.ne_none_iff_exists'.mp hocc
  obtain ⟨w, hw⟩ := h.read ⟨t, by rw [ht]; rfl, by rw [ht]; rfl⟩ hp
  exact hok e (by rw [ht]; rfl) w hw

omit [DecidableEq V] [DecidableEq P] [DecidableEq T] in
/-- When a PTE is zapped, reclaim is done with the page and no swap-in is. -/
theorem key_of_zap (h : Keyed s) {v : V} {e : Entry} (hok : s.Timely (.zap v))
    (hv : s.swap.pte v = .swap e) : s.swap.cache e = none := by
  obtain ⟨-, hread, hdropped⟩ := hok e (by rw [hv]; rfl)
  by_contra hocc
  obtain ⟨p, hp⟩ := Option.ne_none_iff_exists'.mp hocc
  rcases h.under hp with hd | hr
  · exact absurd (hd.symm.trans hdropped) (by simp)
  · exact hread hr

omit [DecidableEq V] [DecidableEq P] [DecidableEq T] in
/-- A page is put under the key of a number that is handed out. -/
theorem out_of_insert (h : Keyed s) {t : T} {v : V} {e : Entry} {b : Bool} {q : P}
    (hok : s.Timely (.insert t q)) (ht : s.swap.thread t = .reading v e b) :
    s.swap.out e = true := by
  obtain ⟨w, hw⟩ := hok e (by rw [ht]; rfl)
  exact h.named hw

/-! ### What a timely step keeps -/

variable [Fintype V] {t : Swap V P T α} {a : SwapStep V P T α}

/-- **A timely step leaves the key of every free number free.** -/
theorem step_free (h : Keyed s) (he : s.swap.Effect a t) (hok : s.Timely a) {e : Entry}
    (hout : t.out e = false) : t.cache e = none := by
  by_contra hocc
  obtain ⟨p, hp⟩ := Option.ne_none_iff_exists'.mp hocc
  rcases he.cache_back hp with hold | ⟨rfl, hphase⟩ | ⟨u, v, b, rfl, hu, -⟩
  · cases hout' : s.swap.out e with
    | false => exact absurd (hold.symm.trans (h.free e hout')) (by simp)
    | true =>
      -- the step gives the number back, so its key was free
      rcases he.out_free hout' with hkeep | ⟨v, rfl, hv, -⟩ | ⟨u, v, b, q, rfl, hu, -⟩
      · exact absurd (hout.symm.trans hkeep) (by simp)
      · exact absurd (hold.symm.trans (h.key_of_zap hok hv)) (by simp)
      · exact absurd (hold.symm.trans (h.key_of_giveBack hok hu)) (by simp)
  · -- the number of a page that is being added is handed out
    obtain ⟨hun, hout'⟩ := h.outbound.unused (Or.inl hphase)
    exact absurd (hout.symm.trans (he.out_keep hout' hun)) (by simp)
  · rcases he.out_free (h.out_of_insert hok hu) with hkeep | ⟨v, ha, -⟩ | ⟨u, v, b, q, ha, -⟩
    · exact absurd (hout.symm.trans hkeep) (by simp)
    · exact absurd ha (by simp)
    · exact absurd ha (by simp)

/-- A number stays handed out while a PTE names it. -/
theorem step_named (h : Keyed s) (he : s.swap.Effect a t) (hok : s.Timely a) {v : V} {e : Entry}
    (hv : t.pte v = .swap e) : t.out e = true := by
  -- where a PTE named the entry before, the step does not free it
  have hkeep : ∀ {w : V}, s.swap.pte w = .swap e → t.out e = true := by
    intro w hw
    rcases he.out_free (h.named hw) with hkeep | ⟨u, rfl, hu, hnone⟩ | ⟨u, w', b, q, rfl, hu, -⟩
    · exact hkeep
    · obtain ⟨honly, -⟩ := hok e (by rw [hu]; rfl)
      rcases he.swap_back hv with ⟨hold, -⟩ | ⟨p, ha, -⟩ | ⟨w', ha, -⟩
      · rw [honly v hold] at hv
        exact absurd (hv.symm.trans hnone) (by simp)
      · exact absurd ha (by simp)
      · exact absurd ha (by simp)
    · exact absurd hw (hok e (by rw [hu]; rfl) w)
  rcases he.swap_back hv with ⟨hold, -⟩ | ⟨p, -, hpriv, hm, -⟩ | ⟨w, -, hw, -⟩
  · exact hkeep hold
  · -- the page that has just been unmapped was on its way out
    obtain ⟨hun, hout⟩ := h.outbound.unused (Or.inr ⟨hpriv, v, hm⟩)
    exact he.out_keep hout hun
  · exact hkeep hw

theorem step_under (h : Keyed s) (he : s.swap.Effect a t) (hok : s.Timely a) {e : Entry} {p : P}
    (hp : t.cache e = some p) : (s.record t a).dropped e = false ∨ t.beingRead e := by
  cases hd : (s.record t a).dropped e with
  | false => exact Or.inl rfl
  | true =>
    right
    obtain ⟨hdropped, hadd⟩ := dropped_back he hp hd
    rcases he.cache_back hp with hold | ⟨ha, -⟩ | ⟨u, v, b, rfl, hu, -⟩
    · rcases h.under hold with hno | hread
      · exact absurd (hno.symm.trans hdropped) (by simp)
      · rcases he.beingRead_keep hread with hread' | hout
        · exact hread'
        · exact absurd (hp.symm.trans (h.step_free he hok hout)) (by simp)
    · exact absurd ha hadd
    · refine ⟨u, ?_⟩
      cases he with
      | insert hu' =>
        obtain ⟨rfl, rfl, rfl⟩ := Fault.reading.inj (hu.symm.trans hu')
        simp [Fault.isFilling, Fault.source?]

theorem step_read (h : Keyed s) (he : s.swap.Effect a t) (hok : s.Timely a) {e : Entry} {p : P}
    (hread : t.beingRead e) (hp : t.cache e = some p) : ∃ w, t.pte w = .swap e := by
  -- a PTE named the entry before the step, or the step puts a page there for one
  obtain ⟨w, hw⟩ : ∃ w, s.swap.pte w = .swap e := by
    obtain ⟨u, hfill, hentry⟩ := hread
    rcases he.filling_back hfill with ⟨hfill', -, hentry'⟩ | ⟨q, v, e', b, rfl, hu, -, -, hentry'⟩
    · have hread' : s.swap.beingRead e := ⟨u, hfill', hentry'.trans hentry⟩
      rcases he.cache_back hp with hold | ⟨-, hphase⟩ | ⟨u', v, b, rfl, hu', -⟩
      · exact h.read hread' hold
      · exact absurd (hentry'.trans hentry) ((h.outbound.unused (Or.inl hphase)).1.2 u)
      · exact hok e (by rw [hu']; rfl)
    · obtain rfl := Option.some.inj (hentry'.symm.trans hentry)
      exact hok e' (by rw [hu]; rfl)
  rcases he.swap_keep hw with hw' | rfl | ⟨u, q, rfl, hu, hpriv⟩
  · exact ⟨w, hw'⟩
  · -- no swap PTE is zapped while its page is being read in
    obtain ⟨-, hno, -⟩ := hok e (by rw [hw]; rfl)
    obtain ⟨u, hfill, hentry⟩ := hread
    rcases he.filling_back hfill with ⟨hfill', -, hentry'⟩ | ⟨q, v, e', b, ha, -⟩
    · exact absurd ⟨u, hfill', hentry'.trans hentry⟩ hno
    · exact absurd ha (by simp)
  · -- a swap-in that maps the page takes it out of the swap cache
    have hnone := (he.linked h.outbound.cached e p).mp hp
    rcases he.cache_back hp with hold | ⟨ha, -⟩ | ⟨u', v, b, ha, -⟩
    · obtain rfl := h.outbound.cached.linked.inj hpriv ((h.outbound.cached.linked e p).mp hold)
      cases he with
      | map hu' hlock hpriv' =>
        obtain ⟨-, -, rfl⟩ := Fault.got.inj (hu.symm.trans hu')
        exact absurd hnone (by simp)
      | mapFail hu' hback =>
        obtain ⟨rfl, rfl, rfl⟩ := Fault.got.inj (hu.symm.trans hu')
        exact absurd ⟨hpriv, hw⟩ hback
    · exact absurd ha (by simp)
    · exact absurd ha (by simp)

/-- Every timely step keeps the keys in order. -/
theorem step (h : Keyed s) (he : s.swap.Effect a t) (hok : s.Timely a) :
    Keyed (s.record t a) where
  outbound := by
    rw [record_swap]
    apply h.outbound.step he
    rintro v e rfl -
    exact hok
  free := by
    intro e hout
    rw [record_swap] at hout ⊢
    exact h.step_free he hok hout
  add := by
    intro p e hp
    rw [record_swap] at hp ⊢
    exact he.key_kept h.outbound h.free h.add hp
  named := by
    intro v e hv
    rw [record_swap] at hv ⊢
    exact h.step_named he hok hv
  under := by
    intro e p hp
    rw [record_swap] at hp ⊢
    exact h.step_under he hok hp
  read := by
    intro e p hread hp
    rw [record_swap] at hread hp ⊢
    exact h.step_read he hok hread hp

end Keyed

/-! ### Whose page it is -/

/-- Whatever names an entry, or is under its key, belongs to the last time its number was
handed out. -/
structure Current (s : Turns V P T α) : Prop where
  cached : ∀ {e : Entry} {p : P}, s.swap.cache e = some p → s.ofPage p = s.turn e
  copied : ∀ {e : Entry} {p : P}, s.swap.phase p = .copied e → s.ofPage p = s.turn e
  pte : ∀ {e : Entry} {v : V}, s.swap.pte v = .swap e → s.ofPte v = s.turn e
  fault : ∀ {e : Entry} {t : T}, (s.swap.thread t).source? = some e → s.ofFault t = s.turn e

section Steps

variable {s : Turns V P T α} {t : Swap V P T α} {a : SwapStep V P T α} [Fintype V]

/-- A page that is under a key or on its way there stays its owner's. -/
theorem record_ofPage_busy (he : s.swap.Effect a t) {p : P}
    (hbusy : (s.swap.priv p).isSome ∨ s.swap.phase p ≠ .idle) :
    (s.record t a).ofPage p = s.ofPage p := by
  have hidle : s.swap.priv p = none → s.swap.phase p = .idle → False := by
    intro hpriv hphase
    rcases hbusy with hb | hb
    · rw [hpriv] at hb
      exact absurd hb (by simp)
    · exact hb hphase
  refine record_ofPage ?_ ?_
  · rintro v e rfl hv
    cases he with
    | copy hv' honly hpriv hphase =>
      rw [hv'] at hv
      obtain rfl := Option.some.inj hv
      exact hidle hpriv hphase
  · rintro u rfl
    cases he with
    | insert ht hc hq => exact hidle hq.2.1 hq.2.2.1

namespace Current

omit [DecidableEq V] [DecidableEq P] [DecidableEq T] [Fintype V] in
theorem init (content : P → α) (store : Entry → α) (seen : V → α) :
    Current (Turns.init content store seen : Turns V P T α) where
  cached := fun h => by simp [Turns.init, Swap.init] at h
  copied := fun h => by simp [Turns.init, Swap.init] at h
  pte := fun h => by simp [Turns.init, Swap.init] at h
  fault := fun h => by simp [Turns.init, Swap.init, Fault.source?] at h

theorem step_cached (h : Current s) (he : s.swap.Effect a t) (ho : s.swap.Outbound)
    (hfree : ∀ e, s.swap.out e = false → s.swap.cache e = none) {e : Entry} {p : P}
    (hp : t.cache e = some p) : (s.record t a).ofPage p = (s.record t a).turn e := by
  rcases he.cache_back hp with hold | ⟨rfl, hphase⟩ | ⟨u, v, b, rfl, hu, -⟩
  · have hpriv := (ho.cached.linked e p).mp hold
    rw [record_ofPage_busy he (Or.inl (by rw [hpriv]; rfl)), record_turn, h.cached hold]
    rintro v rfl
    cases he with
    | copy _ _ _ _ _ hout => exact absurd (hold.symm.trans (hfree e hout)) (by simp)
  · exact h.copied hphase
  · simp only [record, Function.update_self, hu]
    rfl

theorem step_copied (h : Current s) (he : s.swap.Effect a t) (ho : s.swap.Outbound)
    {e : Entry} {p : P} (hp : t.phase p = .copied e) :
    (s.record t a).ofPage p = (s.record t a).turn e := by
  rcases he.copied_back hp with hold | ⟨v, d, rfl, hv, -⟩
  · rw [record_ofPage_busy he (Or.inr (by rw [hold]; simp)), record_turn, h.copied hold]
    rintro v rfl
    cases he with
    | copy _ _ _ _ _ hout =>
      exact absurd (hout.symm.trans (ho.unused (Or.inl hold)).2) (by simp)
  · have hpage : (s.swap.pte v).page? = some p := by rw [hv]; rfl
    simp only [record, Function.update_self, if_pos hpage]

theorem step_pte (h : Current s) (he : s.swap.Effect a t) (ho : s.swap.Outbound)
    (hok : s.Timely a) {e : Entry} {v : V} (hv : t.pte v = .swap e) :
    (s.record t a).ofPte v = (s.record t a).turn e := by
  rcases he.swap_back hv with ⟨hold, -⟩ | ⟨p, rfl, hpriv, hm, -⟩ | ⟨w, rfl, hw, -⟩
  · have hturn : (s.record t a).turn e = s.turn e :=
      record_turn fun w hc => by
        subst hc
        exact hok.1 v hold
    rw [hturn, ← h.pte hold]
    cases a with
    | unmap p => exact if_neg (by rw [hold]; simp [Pte.page?])
    | fork w u =>
      refine Function.update_of_ne (fun hc => ?_) ..
      cases he with
      | fork hnone =>
        rw [← hc, hold] at hnone
        exact absurd hnone (by simp)
    | _ => rfl
  · simp only [record, if_pos hm]
    exact h.cached ((ho.cached.linked e p).mpr hpriv)
  · simp only [record, Function.update_self]
    exact h.pte hw

theorem step_fault (h : Current s) (he : s.swap.Effect a t) (hok : s.Timely a) {e : Entry}
    {u : T} (hu : (t.thread u).source? = some e) :
    (s.record t a).ofFault u = (s.record t a).turn e := by
  rcases he.entry_back hu with hold | ⟨v, rfl, hv⟩
  · have hturn : (s.record t a).turn e = s.turn e :=
      record_turn fun w hc => by
        subst hc
        exact hok.2 u hold
    rw [hturn, ← h.fault hold]
    cases a with
    | fault w v =>
      refine Function.update_of_ne (fun hc => ?_) ..
      cases he with
      | fault hidle hv =>
        rw [hc, hidle] at hold
        exact absurd hold (by simp [Fault.source?])
    | _ => rfl
  · simp only [record, Function.update_self]
    exact h.pte hv

/-- **A timely step keeps what names an entry at its last turn.** -/
theorem step (h : Current s) (he : s.swap.Effect a t) (ho : s.swap.Outbound)
    (hfree : ∀ e, s.swap.out e = false → s.swap.cache e = none) (hok : s.Timely a) :
    Current (s.record t a) where
  cached := fun hp => h.step_cached he ho hfree (by rwa [record_swap] at hp)
  copied := fun hp => h.step_copied he ho (by rwa [record_swap] at hp)
  pte := fun hv => h.step_pte he ho hok (by rwa [record_swap] at hv)
  fault := fun hu => h.step_fault he hok (by rwa [record_swap] at hu)

end Current

end Steps

variable [Fintype V] [Fintype T]

/-- **In timely runs no key is ever occupied by another owner's page.**  A free number has a free
key, `add_to_swap` finds its key free, and what a swap-in finds under its key is its own. -/
theorem reach_exclusive {content : P → α} {store : Entry → α} {seen : V → α}
    {s : Turns V P T α} (h : Reach content store seen Timely s) : Exclusive s := by
  have hinv : Keyed s ∧ Current s := by
    refine h.invariant (I := fun s => Keyed s ∧ Current s) ?_ ?_
    · rintro s rfl
      exact ⟨Keyed.init content store seen, Current.init content store seen⟩
    · rintro s a s' - ⟨hkeyed, hcur⟩ hok hs
      obtain ⟨t, ht, rfl⟩ := Option.map_eq_some_iff.mp hs
      have he := Swap.step_effect ht
      exact ⟨hkeyed.step he hok, hcur.step he hkeyed.outbound hkeyed.free hok⟩
  obtain ⟨hkeyed, hcur⟩ := hinv
  exact ⟨hkeyed.free, hkeyed.add, fun _ _ _ ht hp => (hcur.cached hp).trans (hcur.fault ht).symm⟩

/-- Two threads fault on a page that has been swapped out; one reads it in, the other maps it
before the number is given back.  The number is handed out for another page, given back by
`zap_pte_range`, and handed out a third time. -/
theorem reach_exclusive_again : ∃ s : Turns Bool ℕ Bool ℕ,
    Reach (fun _ => 0) (fun _ => 0) (fun _ => 0) Timely s ∧
      (s.turn (.atHome 5) = 3 ∧ s.swap.cache (.atHome 5) = some 3) ∧ Exclusive s := by
  obtain ⟨s, hs, hend⟩ := Machine.exists_reach_of_exec
    (init (fun _ => 0) (fun _ => 0) (fun _ => 0) : Turns Bool ℕ Bool ℕ) Timely next
    (fun s => s.turn (.atHome 5) = 3 ∧ s.swap.cache (.atHome 5) = some 3)
    [.newPage false 0 1, .copy false (.atHome 5), .add 0 true, .unmap 0, .pageout 0, .remove 0,
      .fault false false, .lookup false, .noMem false, .insert false 1, .read false,
      .fault true false, .lookup true, .map true, .giveBack false, .map false,
      .newPage true 2 9, .copy true (.atHome 5), .add 2 true, .unmap 2, .pageout 2, .remove 2,
      .zap true, .newPage true 3 4, .copy true (.atHome 5), .add 3 true] (by decide)
  exact ⟨s, hs, hend, reach_exclusive hs⟩

/-- **A number is handed out while its key is occupied**: a swap-in has read page 5 and
given it back, and is not done when `add_to_swap` gets it for another page. -/
theorem not_exclusive : ¬ ∀ s : Turns Bool ℕ Unit ℕ,
    Reach (fun _ => 0) (fun _ => 0) (fun _ => 0) Machine.free s → Exclusive s := by
  intro hall
  obtain ⟨s, hs, hphase, hcache⟩ := Machine.exists_reach_of_exec
    (init (fun _ => 0) (fun _ => 0) (fun _ => 0) : Turns Bool ℕ Unit ℕ)
    Machine.free next
    (fun s => s.swap.phase 2 = .copied (.atHome 5) ∧ s.swap.cache (.atHome 5) = some 1)
    [.newPage false 0 1, .copy false (.atHome 5), .add 0 true, .unmap 0, .pageout 0, .remove 0,
      .fault () false, .lookup (), .insert () 1, .read (), .giveBack (), .newPage true 2 9,
      .copy true (.atHome 5)] (by decide)
  have hnone := (hall s hs).add 2 _ hphase
  rw [hcache] at hnone
  exact absurd hnone (by simp)

end Turns
end Comex
