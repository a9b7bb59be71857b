import Comex.Swap.Pending

/-!
# What has happened to a number

Whether a step frees too early or too late depends on what has happened before it:
how often the number of a COMEX page has been handed out, which of these times a
page, a PTE and a swap-in belong to, and whether the page that `add_to_swap` put
under the key of the number has left the swap cache since.  No field of the kernel
holds this, so it is kept beside the state.

## Main definitions

* `Turns` — the state and its history.
* `Turns.next` — a step, with what it adds to the history.

## Main results

* `Turns.reach_swap`, `Turns.exists_reach` — the history is bookkeeping: the runs with it
  and the runs without it pass through the same states.
* `Turns.dropped_back` — a page found under a key whose page has been dropped was there
  before the step, or is put there by a swap-in.
-/

namespace Comex

/-- The state, with the number of times each COMEX page has been handed out, and which of
these times pages, PTEs and swap-ins belong to. -/
structure Turns (V P T α : Type) where
  swap : Swap V P T α
  turn : Entry → ℕ
  /-- When the page was copied to its entry or read in for it. -/
  ofPage : P → ℕ
  /-- That of the page that was unmapped. -/
  ofPte : V → ℕ
  /-- That of the PTE the swap-in has read. -/
  ofFault : T → ℕ
  /-- Since `add_to_swap` last put a page under the key, `__remove_mapping` has removed a page
  there or a swap-in has mapped one. -/
  dropped : Entry → Bool

namespace Turns

variable {V P T α : Type} [DecidableEq V] [DecidableEq P] [DecidableEq T]

/-- The state after step `a`, which has led to `t`. -/
def record (s : Turns V P T α) (t : Swap V P T α) : SwapStep V P T α → Turns V P T α
  | .copy v e => { s with
      swap := t
      turn := Function.update s.turn e (s.turn e + 1)
      ofPage := fun p =>
        if (s.swap.pte v).page? = some p then s.turn e + 1 else s.ofPage p }
  | .add p _ => { s with
      swap := t
      dropped := fun e => s.dropped e && decide (t.cache e ≠ some p) }
  | .insert u q => { s with
      swap := t
      ofPage := Function.update s.ofPage q ((s.swap.thread u).source?.elim 0 s.turn) }
  | .unmap p => { s with
      swap := t
      ofPte := fun v => if (s.swap.pte v).page? = some p then s.ofPage p else s.ofPte v }
  | .remove _ | .map _ => { s with
      swap := t
      dropped := fun e => s.dropped e || decide (t.cache e ≠ s.swap.cache e) }
  | .fork v w => { s with swap := t, ofPte := Function.update s.ofPte w (s.ofPte v) }
  | .fault u v => { s with swap := t, ofFault := Function.update s.ofFault u (s.ofPte v) }
  | _ => { s with swap := t }

/-- One step, if it is enabled. -/
def next [Fintype V] [Fintype T] (s : Turns V P T α) (a : SwapStep V P T α) :
    Option (Turns V P T α) :=
  (s.swap.step a).map fun t => s.record t a

def init (content : P → α) (store : Entry → α) (seen : V → α) : Turns V P T α where
  swap := .init content store seen
  turn _ := 0
  ofPage _ := 0
  ofPte _ := 0
  ofFault _ := 0
  dropped _ := false

/-- The runs whose every step meets a guard. -/
abbrev Reach [Fintype V] [Fintype T] (content : P → α) (store : Entry → α) (seen : V → α)
    (ok : Turns V P T α → SwapStep V P T α → Prop) (s : Turns V P T α) : Prop :=
  Machine.Reach (Machine.ofPartial (init content store seen) next) ok s

section Steps

variable {s : Turns V P T α} {t : Swap V P T α} {a : SwapStep V P T α}

@[simp] theorem record_swap : (s.record t a).swap = t := by
  cases a <;> rfl

theorem record_turn {e : Entry} (h : ∀ v, a ≠ .copy v e) : (s.record t a).turn e = s.turn e := by
  cases a with
  | copy v e' => exact Function.update_of_ne (fun hc => h v (by rw [hc])) ..
  | _ => rfl

theorem record_ofPage {p : P} (hcopy : ∀ v e, a = .copy v e → (s.swap.pte v).page? ≠ some p)
    (hinsert : ∀ u, a ≠ .insert u p) : (s.record t a).ofPage p = s.ofPage p := by
  cases a with
  | copy v e => exact if_neg (hcopy v e rfl)
  | insert u q => exact Function.update_of_ne (fun hc => hinsert u (by rw [hc])) ..
  | _ => rfl

variable [Fintype V]

/-- **A page under a key whose page has been dropped.**  Where the key has a page after the step,
it had been dropped before, and the step does not add the page: `add_to_swap` would start the
history of the key again, and a removal or a mapping would leave the key free. -/
theorem dropped_back (he : s.swap.Effect a t) {e : Entry} {p : P} (hp : t.cache e = some p)
    (hd : (s.record t a).dropped e = true) :
    s.dropped e = true ∧ a ≠ .add p true := by
  -- what is taken out is taken from under its own key
  have herase : ∀ {q : P} {e' : Entry}, s.swap.priv q = some e' →
      t.cache = Function.update s.swap.cache e' none → t.cache e = s.swap.cache e := by
    intro q e' hq hcache
    have hne : e ≠ e' := by
      intro h
      rw [hcache, h, Function.update_self] at hp
      exact absurd hp (by simp)
    rw [hcache, Function.update_of_ne hne]
  cases a with
  | add q ok =>
    simp only [record, Bool.and_eq_true, decide_eq_true_eq] at hd
    refine ⟨hd.1, fun h => ?_⟩
    obtain ⟨rfl, -⟩ := SwapStep.add.inj h
    exact hd.2 hp
  | remove q =>
    simp only [record, Bool.or_eq_true, decide_eq_true_eq] at hd
    cases he with
    | remove _ _ _ hq => exact ⟨hd.resolve_right fun h => h (herase hq rfl), by simp⟩
  | map u =>
    simp only [record, Bool.or_eq_true, decide_eq_true_eq] at hd
    cases he with
    | map _ _ hq _ => exact ⟨hd.resolve_right fun h => h (herase hq rfl), by simp⟩
    | mapFail => exact ⟨hd.resolve_right fun h => h rfl, by simp⟩
  | _ => exact ⟨hd, by simp⟩

end Steps

/-! ### The history is bookkeeping -/

variable [Fintype V] [Fintype T] {content : P → α} {store : Entry → α} {seen : V → α}

/-- A run with its history is a run. -/
theorem reach_swap {ok : Turns V P T α → SwapStep V P T α → Prop} {s : Turns V P T α}
    (h : Reach content store seen ok s) : Swap.Reach content store seen Machine.free s.swap := by
  apply Machine.Reach.map (f := Turns.swap) h (by rintro s rfl; rfl)
  intro s a s' hs
  obtain ⟨t, ht, rfl⟩ := Option.map_eq_some_iff.mp hs
  exact Or.inr ⟨a, by rw [record_swap]; exact ht⟩

/-- Every run has a history. -/
theorem exists_reach {s : Swap V P T α} (h : Swap.Reach content store seen Machine.free s) :
    ∃ t : Turns V P T α, Reach content store seen Machine.free t ∧ t.swap = s := by
  obtain ⟨t, ht, hrel⟩ := Machine.Reach.simulate
    (N := Machine.ofPartial (init content store seen) next) (R := fun s t => t.swap = s) h
    (by rintro s rfl; exact ⟨_, rfl, rfl⟩) fun s a s' t _ hrel hs => by
      subst hrel
      exact Or.inr ⟨a, t.record s' a, Option.map_eq_some_iff.mpr ⟨s', hs, rfl⟩, record_swap⟩
  exact ⟨t, ht, hrel⟩

end Turns
end Comex
