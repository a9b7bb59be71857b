import Mathlib.Tactic.TypeStar

/-!
# Guarded runs of a labelled machine

A machine says where its runs start and what one labelled step does.  A run is
taken under a guard `ok` on the steps: `Reach M ok s` says that `s` ends a run
all of whose steps were taken from a state that satisfied the guard.  With the
trivial guard these are the reachable states.

* `Reach.invariant` — what holds initially and survives guarded steps holds
  throughout.
* `Reach.map` — a view of a run that follows another machine is a run of it.
* `Reach.simulate` — a run that another machine can follow is matched by one of its runs.
* `Reach.of_exec` — what a list of labels computes from a reached state is reached.
-/

/-- Where runs start and what one labelled step does. -/
structure Machine (σ α : Type*) where
  init : σ → Prop
  step : σ → α → σ → Prop

namespace Machine

variable {σ α τ β : Type*}

/-- The states that end a run whose every step satisfied `ok` where it was taken. -/
inductive Reach (M : Machine σ α) (ok : σ → α → Prop) : σ → Prop
  | start {s : σ} : M.init s → Reach M ok s
  | next {s s' : σ} {a : α} : Reach M ok s → ok s a → M.step s a s' → Reach M ok s'

/-- The guard of an unrestricted run. -/
def free : σ → α → Prop := fun _ _ => True

instance (s : σ) (a : α) : Decidable (free s a) := inferInstanceAs (Decidable True)

namespace Reach

variable {M : Machine σ α} {N : Machine τ β} {ok ok' : σ → α → Prop} {s : σ}

/-- The induction rule for invariants; the step may use that it starts at a reached state. -/
theorem invariant {I : σ → Prop} (h : Reach M ok s) (start : ∀ s, M.init s → I s)
    (next : ∀ s a s', Reach M ok s → I s → ok s a → M.step s a s' → I s') : I s := by
  induction h with
  | start h0 => exact start _ h0
  | next hr hok hstep ih => exact next _ _ _ hr ih hok hstep

/-- A run is also one under a weaker guard. -/
theorem mono (h : Reach M ok s) (hle : ∀ s a, ok s a → ok' s a) : Reach M ok' s := by
  induction h with
  | start h0 => exact .start h0
  | next _ hok hstep ih => exact ih.next (hle _ _ hok) hstep

/-- The view `f` of a run is a run of another machine, which may stay where it is. -/
theorem map {f : σ → τ} (h : Reach M ok s) (start : ∀ s, M.init s → N.init (f s))
    (next : ∀ s a s', M.step s a s' → f s' = f s ∨ ∃ b, N.step (f s) b (f s')) :
    Reach N free (f s) := by
  induction h with
  | start h0 => exact .start (start _ h0)
  | next _ _ hstep ih =>
    rcases next _ _ _ hstep with heq | ⟨b, hb⟩
    · rw [heq]
      exact ih
    · exact ih.next trivial hb

/-- A run that `N` can follow, a step at a time or not at all, ends in a state related to
one that `N` reaches. -/
theorem simulate {R : σ → τ → Prop} (h : Reach M ok s)
    (start : ∀ s, M.init s → ∃ t, N.init t ∧ R s t)
    (next : ∀ s a s' t, Reach N free t → R s t → M.step s a s' →
      R s' t ∨ ∃ b t', N.step t b t' ∧ R s' t') :
    ∃ t, Reach N free t ∧ R s t := by
  induction h with
  | start h0 =>
    obtain ⟨t, ht, hr⟩ := start _ h0
    exact ⟨t, .start ht, hr⟩
  | next _ _ hstep ih =>
    obtain ⟨t, ht, hr⟩ := ih
    rcases next _ _ _ t ht hr hstep with hr' | ⟨b, t', hb, hr'⟩
    · exact ⟨t, ht, hr'⟩
    · exact ⟨t', ht.next trivial hb, hr'⟩

end Reach

/-- The machine that goes on from `s`. -/
def since (M : Machine σ α) (s : σ) : Machine σ α where
  init t := t = s
  step := M.step

theorem Reach.append {M : Machine σ α} {ok : σ → α → Prop} {s t : σ} (h : Reach M ok s)
    (ht : Reach (M.since s) ok t) : Reach M ok t := by
  induction ht with
  | start h0 =>
    rw [show _ = s from h0]
    exact h
  | next _ hok hstep ih => exact ih.next hok hstep

/-! ### Machines of partial functions -/

/-- The machine that starts in `s₀` and steps by a partial function. -/
def ofPartial (s₀ : σ) (next : σ → α → Option σ) : Machine σ α where
  init s := s = s₀
  step s a s' := next s a = some s'

/-- The state a list of labels leads to, if each is enabled and meets the guard. -/
def exec (ok : σ → α → Prop) [∀ s a, Decidable (ok s a)] (next : σ → α → Option σ) :
    σ → List α → Option σ
  | s, [] => some s
  | s, a :: as => if ok s a then (next s a).bind fun s' => exec ok next s' as else none

theorem exec_cons {ok : σ → α → Prop} [∀ s a, Decidable (ok s a)] {next : σ → α → Option σ}
    {s s' : σ} {a : α} (hok : ok s a) (hs : next s a = some s') (as : List α) :
    exec ok next s (a :: as) = exec ok next s' as := by
  rw [exec, if_pos hok, hs]
  rfl

theorem Reach.of_exec {M : Machine σ α} {next : σ → α → Option σ}
    (hnext : ∀ s a s', next s a = some s' → M.step s a s') {s s' : σ} {ok : σ → α → Prop}
    [∀ s a, Decidable (ok s a)] {as : List α} (h : Reach M ok s)
    (hexec : exec ok next s as = some s') : Reach M ok s' := by
  induction as generalizing s with
  | nil =>
    rw [exec, Option.some.injEq] at hexec
    rwa [← hexec]
  | cons a as ih =>
    rw [exec] at hexec
    by_cases hok : ok s a
    · rw [if_pos hok, Option.bind_eq_some_iff] at hexec
      obtain ⟨t, hstep, hrest⟩ := hexec
      exact ih (h.next hok (hnext _ _ _ hstep)) hrest
    · rw [if_neg hok] at hexec
      exact absurd hexec (by simp)

/-- A run that ends in a state of interest, found by evaluation. -/
theorem exists_reach_of_exec (s₀ : σ) (ok : σ → α → Prop) [∀ s a, Decidable (ok s a)]
    (next : σ → α → Option σ) (bad : σ → Prop) [DecidablePred bad] (as : List α)
    (h : (exec ok next s₀ as).any (fun s => decide (bad s)) = true) :
    ∃ s, Reach (ofPartial s₀ next) ok s ∧ bad s := by
  cases hexec : exec ok next s₀ as with
  | none =>
    rw [hexec] at h
    exact absurd h (by simp)
  | some s =>
    rw [hexec] at h
    exact ⟨s, Reach.of_exec (fun _ _ _ h => h) (.start rfl) hexec, by simpa using h⟩

end Machine
