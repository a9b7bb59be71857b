import Mathlib.Data.Int.ModEq
import Mathlib.RingTheory.Coprime.Lemmas
import Mathlib.NumberTheory.Multiplicity
import Mathlib.Order.Interval.Finset.Nat
import Mathlib.Data.Int.Interval

/-!
# The period of a linear congruential sequence

The map `x ↦ x * a + 1` taken modulo `n` goes through all residues in one cycle
under the conditions of Hull and Dobell: every prime that divides `n` divides
`a - 1`, and so does 4 if it divides `n`.  If one sequence of the map meets all
residues in `n` steps after its start, the conditions hold.

## Main definitions

* `next` — the map.
* `Full` — the conditions.

## Main results

* `dvd_of_dvd_series` — under the conditions no shorter cycle closes.
* `covers_iff` — **`n` steps meet all residues exactly under the conditions.**
-/

namespace Congruential

open Finset

/-- One step of the sequence. -/
def next (a x : ℤ) : ℤ := x * a + 1

/-- The conditions on the multiplier `a` for the modulus `n`. -/
structure Full (a : ℤ) (n : ℕ) : Prop where
  prime : ∀ p : ℕ, p.Prime → p ∣ n → (p : ℤ) ∣ a - 1
  four : 4 ∣ n → (4 : ℤ) ∣ a - 1

/-- `1 + a + ⋯ + a ^ (k - 1)`. -/
def series (a : ℤ) (k : ℕ) : ℤ := ∑ i ∈ range k, a ^ i

variable {a x y : ℤ} {n k m p : ℕ}

theorem series_succ (a : ℤ) (k : ℕ) : series a (k + 1) = a * series a k + 1 := geom_sum_succ

/-- How far `k` steps lead. -/
theorem iterate_sub (a x : ℤ) (k : ℕ) :
    (next a)^[k] x - x = series a k * ((a - 1) * x + 1) := by
  induction k with
  | zero => simp [series]
  | succ k ih =>
    have hk : (next a)^[k] x = x + series a k * ((a - 1) * x + 1) := by rw [← ih]; ring
    rw [Function.iterate_succ_apply', hk, series_succ, next]
    ring

theorem series_add (a : ℤ) (m k : ℕ) : series a (m + k) = series a m + a ^ m * series a k := by
  rw [series, sum_range_add, series, series, mul_sum]
  simp only [pow_add]

theorem series_mul (a : ℤ) (p k : ℕ) : series a (p * k) = series a p * series (a ^ p) k := by
  induction k with
  | zero => simp [series]
  | succ k ih =>
    rw [Nat.mul_succ, series_add, ih, series, series, series, sum_range_succ, pow_mul]
    ring

/-- Modulo a divisor of `a - 1` every power counts once. -/
theorem dvd_series_sub {q : ℤ} (h : q ∣ a - 1) (k : ℕ) : q ∣ series a k - k := by
  induction k with
  | zero => simp [series]
  | succ k ih =>
    have heq : series a (k + 1) - ((k + 1 : ℕ) : ℤ) =
        (a - 1) * series a k + (series a k - k) := by
      rw [series_succ]
      push_cast
      ring
    rw [heq]
    exact dvd_add (dvd_mul_of_dvd_left h _) ih

/-- Numbers without a common prime. -/
theorem isCoprime_of_primes {u : ℤ} (h : ∀ q : ℕ, q.Prime → q ∣ n → ¬ (q : ℤ) ∣ u) :
    IsCoprime (n : ℤ) u := by
  rw [Int.isCoprime_iff_gcd_eq_one, Int.gcd, Int.natAbs_natCast]
  refine Nat.coprime_of_dvd fun q hq hqn hqu => h q hq hqn ?_
  exact Int.natCast_dvd.mpr hqu

theorem Full.pow (h : Full a n) (hm : m ∣ n) (p : ℕ) : Full (a ^ p) m := by
  have hsub : a - 1 ∣ a ^ p - 1 := by
    have := sub_dvd_pow_sub_pow a 1 p
    rwa [one_pow] at this
  refine ⟨fun q hq hqm => ?_, fun h4 => ?_⟩
  · exact dvd_trans (h.prime q hq (dvd_trans hqm hm)) hsub
  · exact dvd_trans (h.four (dvd_trans h4 hm)) hsub

/-- The square of a prime whose square divides the modulus does not divide the sum of that
many powers. -/
theorem Full.not_sq_dvd (h : Full a n) (hp : p.Prime) (hpp : p * p ∣ n) :
    ¬ (p : ℤ) ^ 2 ∣ series a p := by
  have hpn : p ∣ n := dvd_trans (dvd_mul_right p p) hpp
  obtain ⟨t, ht⟩ := h.prime p hp hpn
  intro hdvd
  rcases hp.eq_two_or_odd' with rfl | hodd
  · have h4 := h.four hpp
    have hsum : series a 2 = a + 1 := by simp [series, sum_range_succ, add_comm]
    rw [hsum] at hdvd
    omega
  · have hgeom := odd_sq_dvd_geom_sum₂_sub (a := (1 : ℤ)) (b := t) hodd
    have hbase : (1 : ℤ) + p * t = a := by rw [← ht]; ring
    simp only [hbase, one_pow, mul_one] at hgeom
    have hp2 : (p : ℤ) ^ 2 ∣ p := by
      have := dvd_sub hdvd hgeom
      rwa [series, sub_sub_cancel] at this
    have hle := Int.le_of_dvd (by exact_mod_cast hp.pos) hp2
    have := hp.two_le
    nlinarith

/-- **Under the conditions no shorter cycle closes.**  Induction on the modulus: a prime `p`
of it divides `k`, and the sum of `k` powers of `a` is the sum of `p` of them times that of
`k / p` powers of `a ^ p`, of which the first takes `p` from the modulus and no more. -/
theorem dvd_of_dvd_series : ∀ {n : ℕ}, 0 < n → ∀ {a : ℤ} {k : ℕ}, Full a n →
    (n : ℤ) ∣ series a k → n ∣ k := by
  intro n
  induction n using Nat.strong_induction_on with
  | _ n ih =>
    intro hn a k h hdvd
    by_cases h1 : n = 1
    · rw [h1]
      exact one_dvd k
    obtain ⟨p, hp, m, rfl⟩ := Nat.exists_prime_and_dvd h1
    have hpa : (p : ℤ) ∣ a - 1 := h.prime p hp (dvd_mul_right p m)
    have hm : 0 < m := Nat.pos_of_mul_pos_left hn
    -- modulo `p` every power of `a` is 1, so the sum is `k`
    obtain ⟨k', rfl⟩ : p ∣ k := by
      have hpk : (p : ℤ) ∣ series a k := dvd_trans (by push_cast; exact dvd_mul_right _ _) hdvd
      have := (dvd_sub_right hpk).mp (dvd_series_sub hpa k)
      exact_mod_cast this
    obtain ⟨u, hu⟩ : (p : ℤ) ∣ series a p := by
      have := dvd_add (dvd_series_sub hpa p) (dvd_refl (p : ℤ))
      rwa [sub_add_cancel] at this
    have hcop : IsCoprime (m : ℤ) u := by
      apply isCoprime_of_primes
      intro q hq hqm hqu
      by_cases hqp : q = p
      · subst hqp
        apply h.not_sq_dvd hq (Nat.mul_dvd_mul_left q hqm)
        rw [hu, pow_two]
        exact mul_dvd_mul_left _ hqu
      · -- another prime would divide `p`
        have hqs : (q : ℤ) ∣ series a p := hu ▸ dvd_mul_of_dvd_right hqu _
        have hqpd := (dvd_sub_right hqs).mp
          (dvd_series_sub (h.prime q hq (dvd_mul_of_dvd_right hqm p)) p)
        exact hqp ((Nat.prime_dvd_prime_iff_eq hq hp).mp (by exact_mod_cast hqpd))
    have hrest : (m : ℤ) ∣ series (a ^ p) k' := by
      rw [series_mul, hu, mul_assoc] at hdvd
      push_cast at hdvd
      have hp0 : (p : ℤ) ≠ 0 := by exact_mod_cast hp.ne_zero
      exact hcop.dvd_of_dvd_mul_left ((mul_dvd_mul_iff_left hp0).mp hdvd)
    have hlt : m < p * m := lt_mul_of_one_lt_left hm hp.one_lt
    exact Nat.mul_dvd_mul_left p (ih m hlt hm (h.pow (dvd_mul_left m p) p) hrest)

/-- A value of the sequence met again at distance `k`. -/
theorem Full.dvd_of_return (h : Full a n) (hn : 0 < n)
    (hret : (n : ℤ) ∣ (next a)^[k] x - x) : n ∣ k := by
  have hcop : IsCoprime (n : ℤ) ((a - 1) * x + 1) := isCoprime_of_primes fun q hq hqn hqu =>
    hq.one_lt.ne' (Nat.dvd_one.mp (by
      have := (dvd_add_right (dvd_mul_of_dvd_left (h.prime q hq hqn) x)).mp hqu
      exact_mod_cast this))
  rw [iterate_sub] at hret
  exact dvd_of_dvd_series hn h (hcop.dvd_of_dvd_mul_right hret)

/-- **Under the conditions `n` steps meet all residues**, being `n` different ones. -/
theorem Full.covers (h : Full a n) (hn : 0 < n) (x y : ℤ) :
    ∃ i < n, (next a)^[i] x ≡ y [ZMOD n] := by
  have hpos : (0 : ℤ) < n := by exact_mod_cast hn
  have hinj : Set.InjOn (fun i : ℕ => (next a)^[i] x % n) (range n) := by
    have hlt : ∀ i j : ℕ, i < j → j < n →
        (next a)^[i] x % n ≠ (next a)^[j] x % n := by
      intro i j hij hj heq
      have hret : (n : ℤ) ∣ (next a)^[j - i] ((next a)^[i] x) - (next a)^[i] x := by
        rw [← Function.iterate_add_apply, Nat.sub_add_cancel hij.le]
        exact Int.ModEq.dvd heq
      have := Nat.le_of_dvd (by omega) (h.dvd_of_return hn hret)
      omega
    intro i hi j hj heq
    have hi' := mem_range.mp hi
    have hj' := mem_range.mp hj
    rcases lt_trichotomy i j with hij | hij | hij
    · exact absurd heq (hlt i j hij hj')
    · exact hij
    · exact absurd heq.symm (hlt j i hij hi')
  have hall : (range n).image (fun i : ℕ => (next a)^[i] x % n) = Ico (0 : ℤ) n := by
    refine eq_of_subset_of_card_le (fun z hz => ?_) ?_
    · obtain ⟨i, -, rfl⟩ := mem_image.mp hz
      exact mem_Ico.mpr ⟨Int.emod_nonneg _ hpos.ne', Int.emod_lt_of_pos _ hpos⟩
    · rw [card_image_of_injOn hinj, card_range, Int.card_Ico]
      omega
  have hy : y % n ∈ Ico (0 : ℤ) n :=
    mem_Ico.mpr ⟨Int.emod_nonneg _ hpos.ne', Int.emod_lt_of_pos _ hpos⟩
  rw [← hall] at hy
  obtain ⟨i, hi, heq⟩ := mem_image.mp hy
  exact ⟨i, mem_range.mp hi, heq⟩

/-- A residue the map fixes is reached from itself alone, or from everywhere. -/
theorem fixed_of_reached {q : ℤ} (hq : Prime q) (hfix : q ∣ (a - 1) * y + 1) {i : ℕ}
    (hi : q ∣ (next a)^[i + 1] x - y) (j : ℕ) : q ∣ (next a)^[j + 1] x - y := by
  have hstep : ∀ z, next a z - y = a * (z - y) + ((a - 1) * y + 1) := by
    intro z
    rw [next]
    ring
  have hdvd : ∀ z, q ∣ next a z - y ↔ q ∣ a ∨ q ∣ z - y := by
    intro z
    rw [hstep, dvd_add_left hfix, hq.dvd_mul]
  by_cases hqa : q ∣ a
  · rw [Function.iterate_succ_apply']
    exact (hdvd _).mpr (Or.inl hqa)
  · have hback : ∀ k, q ∣ (next a)^[k] x - y ↔ q ∣ x - y := by
      intro k
      induction k with
      | zero => exact Iff.rfl
      | succ k ih => rw [Function.iterate_succ_apply', hdvd, or_iff_right hqa, ih]
    exact (hback _).mpr ((hback _).mp hi)

/-- **A sequence that meets all residues in `n` steps after its start has the conditions.** -/
theorem full_of_covers (h : ∀ y, ∃ i < n, (next a)^[i + 1] x ≡ y [ZMOD n]) : Full a n := by
  have hcover : ∀ q : ℕ, q ∣ n → ∀ y, ∃ i, (q : ℤ) ∣ (next a)^[i + 1] x - y := by
    intro q hq y
    obtain ⟨i, -, hi⟩ := h y
    exact ⟨i, dvd_trans (by exact_mod_cast hq) hi.symm.dvd⟩
  have hprime : ∀ p : ℕ, p.Prime → p ∣ n → (p : ℤ) ∣ a - 1 := by
    intro p hp hpn
    by_contra hndvd
    have hpp : Prime (p : ℤ) := Nat.prime_iff_prime_int.mp hp
    -- the map fixes a residue, and the sequence stays there
    have hcop : IsCoprime (p : ℤ) (a - 1) := isCoprime_of_primes fun q hq hqp hqa =>
      hndvd ((Nat.prime_dvd_prime_iff_eq hq hp).mp hqp ▸ hqa)
    obtain ⟨u, v, huv⟩ := hcop.symm
    have hfix : (p : ℤ) ∣ (a - 1) * (-u) + 1 := ⟨v, by linarith⟩
    obtain ⟨i, hi⟩ := hcover p hpn (-u)
    obtain ⟨j, hj⟩ := hcover p hpn (-u + 1)
    have hone := dvd_sub (fixed_of_reached hpp hfix hi j) hj
    have heq : (next a)^[j + 1] x - -u - ((next a)^[j + 1] x - (-u + 1)) = 1 := by ring
    rw [heq] at hone
    exact hpp.not_isUnit (isUnit_of_dvd_one hone)
  refine ⟨hprime, fun h4 => ?_⟩
  by_contra hndvd
  -- 2 divides `a - 1` and 4 does not, so the sequence keeps to one half of the residues
  have h2 := hprime 2 Nat.prime_two (dvd_trans (by decide) h4)
  obtain ⟨t, ht⟩ : ∃ t, a = 4 * t + 3 := ⟨(a - 3) / 4, by push_cast at h2; omega⟩
  have hhalf : ∀ k, ((next a)^[k] x % 4 < 2 ↔ x % 4 < 2) := by
    intro k
    induction k with
    | zero => exact Iff.rfl
    | succ k ih =>
      rw [Function.iterate_succ_apply', ← ih, next, ht]
      generalize (next (4 * t + 3))^[k] x = z
      have heq : z * (4 * t + 3) + 1 = 4 * (z * t) + 3 * z + 1 := by ring
      rw [heq]
      obtain hz | hz | hz | hz : z % 4 = 0 ∨ z % 4 = 1 ∨ z % 4 = 2 ∨ z % 4 = 3 := by omega
      all_goals omega
  obtain ⟨i, hi⟩ := hcover 4 h4 0
  obtain ⟨j, hj⟩ := hcover 4 h4 2
  have h1 := hhalf (i + 1)
  have h3 := hhalf (j + 1)
  push_cast at hi hj
  omega

/-- **The conditions of Hull and Dobell.** -/
theorem covers_iff (hn : 0 < n) (x : ℤ) :
    (∀ y, ∃ i < n, (next a)^[i + 1] x ≡ y [ZMOD n]) ↔ Full a n := by
  refine ⟨full_of_covers, fun h y => ?_⟩
  obtain ⟨i, hi, heq⟩ := h.covers hn (next a x) y
  exact ⟨i, hi, heq⟩

end Congruential
