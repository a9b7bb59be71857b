import Mathlib.Data.List.Basic
import Mathlib.Logic.Function.Basic
import Mathlib.Tactic.Common

/-!
# Requests that complete in order

Threads post requests to a queue and wait for them.  The requests complete in the
order they were posted; each completion ups a counting semaphore, and a thread waits
by taking a token from the semaphore of its request.  A token does not say which
request it stands for.  It is the thread's own for sure where only one thread at a
time has a request for that semaphore.

## Main definitions

* `Completions` — what is posted, what has completed, the tokens and the waiters.
* `post`, `complete`, `down` — the steps.
* `Sole` — one thread at most has a request for the semaphore.

## Main results

* `Sole.post`, `Sole.complete`, `Sole.down` — the steps keep a semaphore at one thread.
* `Sole.own` — **its token is that of the waiter's own request.**
* `deliver_spec` — the requests complete one after the other.
-/

/-- A queue of requests; each is named by its place and has a semaphore of its own or
shared with others. -/
structure Completions (κ τ : Type*) where
  /-- The semaphore of each request, in the order of posting. -/
  posted : List κ
  /-- How many requests have completed. -/
  delivered : ℕ
  sem : κ → ℕ
  /-- The semaphore a thread waits at, and its request. -/
  waiting : τ → Option (κ × ℕ)

namespace Completions

variable {κ τ : Type*}

/-- Nothing is posted. -/
def init : Completions κ τ := ⟨[], 0, fun _ => 0, fun _ => none⟩

/-- A request nobody waits for. -/
def issue (s : Completions κ τ) (k : κ) : Completions κ τ := { s with posted := s.posted ++ [k] }

/-- A thread posts a request and will wait for it. -/
def post [DecidableEq τ] (s : Completions κ τ) (t : τ) (k : κ) : Completions κ τ :=
  { s.issue k with waiting := Function.update s.waiting t (some (k, s.posted.length)) }

section Steps

variable [DecidableEq κ]

/-- A semaphore is made anew, without tokens. -/
def reset (s : Completions κ τ) (k : κ) : Completions κ τ :=
  { s with sem := Function.update s.sem k 0 }

/-- The next request completes. -/
def complete (s : Completions κ τ) : Option (Completions κ τ) :=
  s.posted[s.delivered]?.map fun k =>
    { s with delivered := s.delivered + 1, sem := Function.update s.sem k (s.sem k + 1) }

/-- A thread takes a token and stops waiting. -/
def down [DecidableEq τ] (s : Completions κ τ) (t : τ) : Option (Completions κ τ) :=
  (s.waiting t).bind fun x =>
    if 0 < s.sem x.1 then
      some { s with
        sem := Function.update s.sem x.1 (s.sem x.1 - 1)
        waiting := Function.update s.waiting t none }
    else none

theorem complete_waiting {s s' : Completions κ τ} (hs : s.complete = some s') :
    s'.waiting = s.waiting ∧ s'.posted = s.posted := by
  obtain ⟨k, -, rfl⟩ := Option.map_eq_some_iff.mp hs
  exact ⟨rfl, rfl⟩

variable [DecidableEq τ]

omit [DecidableEq κ] in
theorem post_waiting (s : Completions κ τ) (t u : τ) (k : κ) :
    (s.post t k).waiting u = if u = t then some (k, s.posted.length) else s.waiting u :=
  Function.update_apply ..

omit [DecidableEq κ] in
/-- Who waits after a post has posted or has waited before. -/
theorem post_waiting_back {s : Completions κ τ} {t u : τ} {k x : κ} {i : ℕ}
    (hu : (s.post t k).waiting u = some (x, i)) :
    (u = t ∧ x = k ∧ i = s.posted.length) ∨ s.waiting u = some (x, i) := by
  rw [post_waiting] at hu
  split at hu
  · next ht =>
    obtain ⟨rfl, rfl⟩ := Prod.mk.inj (Option.some.inj hu)
    exact Or.inl ⟨ht, rfl, rfl⟩
  · exact Or.inr hu

theorem down_spec {s s' : Completions κ τ} {t : τ} (hs : s.down t = some s') :
    ∃ k i, s.waiting t = some (k, i) ∧ 0 < s.sem k ∧
      s' = { s with
        sem := Function.update s.sem k (s.sem k - 1)
        waiting := Function.update s.waiting t none } := by
  obtain ⟨⟨k, i⟩, ht, hs⟩ := Option.bind_eq_some_iff.mp hs
  simp only [Option.ite_none_right_eq_some, Option.some.injEq] at hs
  exact ⟨k, i, ht, hs.1, hs.2.symm⟩

/-- Only the thread that takes a token stops waiting. -/
theorem down_waiting {s s' : Completions κ τ} {t : τ} (hs : s.down t = some s') (u : τ) :
    s'.waiting u = if u = t then none else s.waiting u := by
  obtain ⟨k, i, -, -, rfl⟩ := down_spec hs
  exact Function.update_apply ..

end Steps

/-- One thread at most has a request for the semaphore, and it holds a token exactly when
that request has completed. -/
structure Sole (k : κ) (s : Completions κ τ) : Prop where
  le : s.delivered ≤ s.posted.length
  unique : ∀ {t u : τ} {i j : ℕ}, s.waiting t = some (k, i) → s.waiting u = some (k, j) → t = u
  posted : ∀ {t : τ} {i : ℕ}, s.waiting t = some (k, i) → s.posted[i]? = some k
  pending : ∀ {j : ℕ}, s.delivered ≤ j → s.posted[j]? = some k → ∃ t, s.waiting t = some (k, j)
  token : ∀ {t : τ} {i : ℕ}, s.waiting t = some (k, i) → s.sem k = if i < s.delivered then 1 else 0
  idle : (∀ t i, s.waiting t ≠ some (k, i)) → s.sem k = 0

namespace Sole

variable {k k' : κ} {t : τ} {s s' : Completions κ τ}

theorem init : Sole k (init : Completions κ τ) where
  le := Nat.le_refl _
  unique := fun h => absurd h (by simp [Completions.init])
  posted := fun h => absurd h (by simp [Completions.init])
  pending := fun _ h => absurd h (by simp [Completions.init])
  token := fun h => absurd h (by simp [Completions.init])
  idle := fun _ => rfl

theorem posted_issue {x : κ} {j : ℕ} (h : (s.issue k').posted[j]? = some x) :
    s.posted[j]? = some x ∨ j = s.posted.length ∧ x = k' := by
  change (s.posted ++ [k'])[j]? = some x at h
  rcases Nat.lt_or_ge j s.posted.length with hj | hj
  · rw [List.getElem?_append_left hj] at h
    exact Or.inl h
  · rw [List.getElem?_append_right hj, List.getElem?_singleton] at h
    split at h
    · exact Or.inr ⟨by omega, (Option.some.inj h).symm⟩
    · exact absurd h (by simp)

theorem issue_posted {x : κ} {j : ℕ} (h : s.posted[j]? = some x) :
    (s.issue k').posted[j]? = some x := by
  change (s.posted ++ [k'])[j]? = some x
  rw [List.getElem?_append_left (List.getElem?_eq_some_iff.mp h).1]
  exact h

/-- **A token is that of the waiter's own request.** -/
theorem own (h : Sole k s) {i : ℕ} (ht : s.waiting t = some (k, i)) (hsem : 0 < s.sem k) :
    i < s.delivered := by
  by_contra hlt
  rw [h.token ht, if_neg hlt] at hsem
  exact absurd hsem (Nat.lt_irrefl _)

/-- A request for another semaphore that nobody waits for. -/
theorem issue (h : Sole k s) (hk : k' ≠ k) : Sole k (s.issue k') where
  le := by
    have := h.le
    simp only [Completions.issue, List.length_append]
    omega
  unique := h.unique
  posted := fun ht => issue_posted (h.posted ht)
  pending := by
    intro j hj hx
    rcases posted_issue hx with hx | ⟨-, hx⟩
    · exact h.pending hj hx
    · exact absurd hx.symm hk
  token := h.token
  idle := h.idle

section Tokens

variable [DecidableEq κ]

/-- A semaphore is made anew only while no thread has a request for it. -/
theorem reset (h : Sole k s) (hk : k' = k → ∀ u i, s.waiting u ≠ some (k, i)) :
    Sole k (s.reset k') := by
  have hsem : ∀ {u : τ} {i : ℕ}, s.waiting u = some (k, i) → (s.reset k').sem k = s.sem k := by
    intro u i hu
    exact Function.update_of_ne (fun hc => hk hc.symm u i hu) ..
  refine ⟨h.le, h.unique, h.posted, h.pending, fun {u i} hu => ?_, fun hno => ?_⟩
  · rw [hsem hu]
    exact h.token hu
  · simp only [Completions.reset, Function.update_apply]
    split
    · rfl
    · exact h.idle hno

/-- A completion gives the waiter its token, or it is for another semaphore. -/
theorem complete (h : Sole k s) (hs : s.complete = some s') : Sole k s' := by
  obtain ⟨k₀, hk₀, rfl⟩ := Option.map_eq_some_iff.mp hs
  have hlt := (List.getElem?_eq_some_iff.mp hk₀).1
  refine ⟨hlt, h.unique, h.posted, fun {j} (hj : s.delivered + 1 ≤ j) hx => h.pending (by omega) hx,
    fun {u i} (hu : s.waiting u = some (k, i)) => ?_, fun hno => ?_⟩
  · simp only [Function.update_apply]
    by_cases hkk : k = k₀
    · -- the request that completes is that of the one thread
      subst hkk
      obtain ⟨v, hv⟩ := h.pending (Nat.le_refl _) hk₀
      obtain rfl := h.unique hu hv
      obtain rfl : i = s.delivered := congrArg Prod.snd (Option.some.inj (hu.symm.trans hv))
      rw [if_pos rfl, h.token hu, if_neg (Nat.lt_irrefl _), if_pos (Nat.lt_succ_self _)]
    · have hne : i ≠ s.delivered := by
        rintro rfl
        exact hkk (Option.some.inj ((h.posted hu).symm.trans hk₀))
      rw [if_neg hkk, h.token hu]
      by_cases hi : i < s.delivered
      · rw [if_pos hi, if_pos (by omega)]
      · rw [if_neg hi, if_neg (by omega)]
  · simp only [Function.update_apply]
    split
    · next hkk =>
      subst hkk
      obtain ⟨v, hv⟩ := h.pending (Nat.le_refl _) hk₀
      exact absurd hv (hno v _)
    · exact h.idle hno

end Tokens

variable [DecidableEq τ]

/-- A request for the semaphore is posted only while no thread has one. -/
theorem post (h : Sole k s) (ht : s.waiting t = none)
    (hk : k' = k → ∀ u i, s.waiting u ≠ some (k, i)) : Sole k (s.post t k') := by
  have hle := h.le
  have hlt : ∀ {u : τ} {i : ℕ}, s.waiting u = some (k, i) → i < s.posted.length := fun hu =>
    (List.getElem?_eq_some_iff.mp (h.posted hu)).1
  have hwait : ∀ {u : τ} {i : ℕ}, (s.post t k').waiting u = some (k, i) ↔
      (u = t ∧ k' = k ∧ i = s.posted.length) ∨ s.waiting u = some (k, i) := by
    refine fun {u i} => ⟨fun hu => (post_waiting_back hu).imp_left (by simp [eq_comm]), ?_⟩
    rw [post_waiting]
    rintro (⟨rfl, rfl, rfl⟩ | hu)
    · exact if_pos rfl
    · have hut : u ≠ t := by
        rintro rfl
        exact absurd (hu.symm.trans ht) (by simp)
      rw [if_neg hut]
      exact hu
  refine ⟨?_, fun {u v i j} hu hv => ?_, fun {u i} hu => ?_, fun {j} hj hx => ?_,
    fun {u i} hu => ?_, fun hno => ?_⟩
  · simp only [Completions.post, Completions.issue, List.length_append]
    omega
  · -- nobody had a request for the semaphore when this one was posted
    rcases hwait.mp hu with ⟨rfl, hkk, -⟩ | hu'
    · rcases hwait.mp hv with ⟨rfl, -, -⟩ | hv'
      · rfl
      · exact absurd hv' (hk hkk _ _)
    · rcases hwait.mp hv with ⟨rfl, hkk, -⟩ | hv'
      · exact absurd hu' (hk hkk _ _)
      · exact h.unique hu' hv'
  · rcases hwait.mp hu with ⟨-, rfl, rfl⟩ | hu
    · exact List.getElem?_concat_length
    · exact issue_posted (h.posted hu)
  · rcases posted_issue hx with hx | ⟨rfl, rfl⟩
    · obtain ⟨u, hu⟩ := h.pending hj hx
      exact ⟨u, hwait.mpr (Or.inr hu)⟩
    · exact ⟨t, hwait.mpr (Or.inl ⟨rfl, rfl, rfl⟩)⟩
  · change s.sem k = if i < s.delivered then 1 else 0
    rcases hwait.mp hu with ⟨-, hkk, rfl⟩ | hu
    · rw [if_neg (by omega)]
      exact h.idle (hk hkk)
    · exact h.token hu
  · refine h.idle fun u i hu => hno u i (hwait.mpr (Or.inr hu))

variable [DecidableEq κ]

/-- Whoever takes a token from the semaphore leaves it without a waiter. -/
theorem down (h : Sole k s) (hs : s.down t = some s') : Sole k s' := by
  obtain ⟨k₀, i₀, ht, hsem, rfl⟩ := down_spec hs
  have hwait : ∀ {u : τ} {i : ℕ}, Function.update s.waiting t none u = some (k, i) →
      u ≠ t ∧ s.waiting u = some (k, i) := by
    intro u i hu
    rw [Function.update_apply] at hu
    split at hu
    · exact absurd hu (by simp)
    · next hne => exact ⟨hne, hu⟩
  refine ⟨h.le, fun {u v i j} hu hv => h.unique (hwait hu).2 (hwait hv).2,
    fun {u i} hu => h.posted (hwait hu).2, fun {j} hj hx => ?_, fun {u i} hu => ?_, fun hno => ?_⟩
  · obtain ⟨u, hu⟩ := h.pending hj hx
    refine ⟨u, ?_⟩
    by_cases hut : u = t
    · -- its own request has completed
      subst hut
      obtain ⟨rfl, rfl⟩ := Prod.mk.inj (Option.some.inj (hu.symm.trans ht))
      have := h.own hu hsem
      change s.delivered ≤ _ at hj
      omega
    · simp only [Function.update_of_ne hut]
      exact hu
  · obtain ⟨hne, hu⟩ := hwait hu
    have hkk : k ≠ k₀ := fun hc => hne (h.unique hu (hc ▸ ht))
    simp only [Function.update_of_ne hkk]
    exact h.token hu
  · simp only [Function.update_apply]
    split
    · next hkk =>
      subst hkk
      have := h.token ht
      split at this <;> omega
    · next hkk =>
      refine h.idle fun u i hu => hno u i ?_
      have hut : u ≠ t := by
        rintro rfl
        exact hkk (Prod.mk.inj (Option.some.inj (hu.symm.trans ht))).1
      simp only [Function.update_of_ne hut]
      exact hu

end Sole

/-! ### Completing several requests -/

section Deliver

variable [DecidableEq κ]

/-- The next `n` requests complete. -/
def deliver : ℕ → Completions κ τ → Option (Completions κ τ)
  | 0, s => some s
  | n + 1, s => s.complete.bind (deliver n)

/-- What is posted can complete: every semaphore keeps its tokens, and that of the last
request has one. -/
theorem deliver_spec (n : ℕ) : ∀ s : Completions κ τ, s.delivered + n ≤ s.posted.length →
    ∃ s', deliver n s = some s' ∧ s'.posted = s.posted ∧ s'.waiting = s.waiting ∧
      s'.delivered = s.delivered + n ∧ (∀ k, s.sem k ≤ s'.sem k) ∧
      ∀ k, 0 < n → s.posted[s.delivered + n - 1]? = some k → 0 < s'.sem k := by
  induction n with
  | zero => exact fun s _ => ⟨s, rfl, rfl, rfl, rfl, fun _ => Nat.le_refl _,
      fun _ h => absurd h (Nat.lt_irrefl _)⟩
  | succ n ih =>
    intro s hle
    have hnext := List.getElem?_eq_getElem (l := s.posted) (i := s.delivered) (by omega)
    obtain ⟨s₁, hs₁⟩ : ∃ s₁, s.complete = some s₁ := ⟨_, by rw [complete, hnext]; rfl⟩
    obtain ⟨k₀, hk₀, rfl⟩ := Option.map_eq_some_iff.mp hs₁
    have hmono : ∀ k, s.sem k ≤ Function.update s.sem k₀ (s.sem k₀ + 1) k := by
      intro k
      rw [Function.update_apply]
      split
      · next hk => rw [hk]; omega
      · exact Nat.le_refl _
    obtain ⟨s', hs', hposted, hwaiting, hdelivered, hsem, hlast⟩ := ih
      { s with
        delivered := s.delivered + 1
        sem := Function.update s.sem k₀ (s.sem k₀ + 1) } (by simp only; omega)
    refine ⟨s', by rw [deliver, hs₁]; exact hs', hposted, hwaiting, ?_, fun k =>
      Nat.le_trans (hmono k) (hsem k), fun k _ hk => ?_⟩
    · rw [hdelivered]
      simp only
      omega
    · rcases Nat.eq_zero_or_pos n with rfl | hn
      · -- the last request is the one that has just completed
        obtain rfl : k₀ = k := Option.some.inj (hk₀.symm.trans (by simpa using hk))
        refine Nat.lt_of_lt_of_le ?_ (hsem k₀)
        simp only [Function.update_self]
        omega
      · apply hlast k hn
        have hidx : s.delivered + 1 + n - 1 = s.delivered + (n + 1) - 1 := by omega
        rw [hidx]
        exact hk

end Deliver

end Completions
