import Mathlib.Data.Nat.Notation
import Mathlib.Tactic.Common

/-!
# Throttles

A throttle with period `P` lets an attempt through when its counter is at zero and
refuses the `P` attempts behind it.  Its counter may also be set from outside, to zero
or to some level above the period.

* `Count` — attempts in a row, with nothing set from outside: how many get through is
  `(n + P - c₀) / (P + 1)`.
* `Budget` — attempts with any such interference: at most one in `P + 1` gets through,
  and one more for each time the counter is set to zero.
-/

namespace Throttle

variable {P c₀ n k c z : ℕ}

/-- An attempt: whether it gets through, and the counter behind it. -/
def attempt (P c : ℕ) : Bool × ℕ := if c = 0 then (true, P) else (false, c - 1)

theorem attempt_zero (P : ℕ) : attempt P 0 = (true, P) := rfl

theorem attempt_of_pos (P : ℕ) (h : 0 < c) : attempt P c = (false, c - 1) :=
  if_neg (Nat.ne_of_gt h)

/-- From counter `c₀`, `n` attempts in a row have let `k` through and left `c`. -/
structure Count (P c₀ n k c : ℕ) : Prop where
  total : n + c = c₀ + (P + 1) * k
  level : k = 0 ∨ c ≤ P

namespace Count

theorem start (P c : ℕ) : Count P c 0 0 c := ⟨by rw [Nat.zero_add, Nat.mul_zero]; rfl, Or.inl rfl⟩

theorem attempt (h : Count P c₀ n k c) :
    Count P c₀ (n + 1) (k + (Throttle.attempt P c).1.toNat) (Throttle.attempt P c).2 := by
  obtain ⟨htotal, hlevel⟩ := h
  rcases Nat.eq_zero_or_pos c with rfl | hc
  · rw [attempt_zero]
    refine ⟨?_, Or.inr (Nat.le_refl P)⟩
    show n + 1 + P = c₀ + (P + 1) * (k + 1)
    rw [Nat.mul_succ]
    omega
  · rw [attempt_of_pos P hc]
    refine ⟨?_, ?_⟩
    · show n + 1 + (c - 1) = c₀ + (P + 1) * k
      omega
    · cases hlevel with
      | inl hk => exact Or.inl hk
      | inr hle => exact Or.inr (Nat.le_trans (Nat.sub_le c 1) hle)

/-- How many attempts get through. -/
theorem eq_div (h : Count P c₀ n k c) : k = (n + P - c₀) / (P + 1) := by
  obtain ⟨htotal, hlevel⟩ := h
  symm
  cases hlevel with
  | inl hk =>
    subst hk
    rw [Nat.div_eq_of_lt]
    omega
  | inr hle =>
    have heq : n + P - c₀ = (P - c) + (P + 1) * k := by omega
    rw [heq, Nat.add_mul_div_left _ _ (Nat.succ_pos P), Nat.div_eq_of_lt (by omega), Nat.zero_add]

end Count

/-- Of `n` attempts `k` have got through, with the counter set to zero `z` times. -/
def Budget (P n k z c : ℕ) : Prop := (P + 1) * k ≤ n + min c P + (P + 1) * z

namespace Budget

theorem start (P c : ℕ) : Budget P 0 0 0 c := by
  unfold Budget
  omega

theorem attempt (h : Budget P n k z c) :
    Budget P (n + 1) (k + (Throttle.attempt P c).1.toNat) z (Throttle.attempt P c).2 := by
  unfold Budget at h ⊢
  rcases Nat.eq_zero_or_pos c with rfl | hc
  · rw [attempt_zero]
    show (P + 1) * (k + 1) ≤ n + 1 + min P P + (P + 1) * z
    rw [Nat.mul_succ]
    omega
  · rw [attempt_of_pos P hc]
    show (P + 1) * k ≤ n + 1 + min (c - 1) P + (P + 1) * z
    omega

/-- The counter is set to zero. -/
theorem clear (h : Budget P n k z c) : Budget P n k (z + 1) 0 := by
  unfold Budget at h ⊢
  rw [Nat.mul_succ]
  omega

/-- The counter is set to a level above the period. -/
theorem raise (h : Budget P n k z c) {c' : ℕ} (hc : P ≤ c') : Budget P n k z c' := by
  unfold Budget at h ⊢
  omega

/-- What gets through. -/
theorem le (h : Budget P n k z c) : k ≤ (n + P) / (P + 1) + z := by
  unfold Budget at h
  have hmul : (k - z) * (P + 1) ≤ n + P := by
    rw [Nat.mul_comm, Nat.mul_sub]
    omega
  have hdiv : k - z ≤ (n + P) / (P + 1) := (Nat.le_div_iff_mul_le (Nat.succ_pos P)).mpr hmul
  omega

end Budget

end Throttle
