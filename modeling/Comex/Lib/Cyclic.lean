import Mathlib.Data.Nat.ModEq
import Mathlib.Data.Int.ModEq
import Mathlib.Tactic.Common

/-!
# Cyclic windows

A ring of `n` slots is used in order: the `j`-th use takes slot `j % n`.  A window
of at most `n` consecutive uses then holds every slot at most once, and a window
of exactly `n` holds each slot once, at a distance from the window's start that
is the slot's offset from the first one.

## Main results

* `slot_inj` — inside a window of `n` uses the slot determines the use.
* `exists_use` — the use of a slot in the window that starts at `a`.
* `slot_add`, `mem_run` — uses before the end of the array take consecutive slots.
-/

namespace Cyclic

variable {n a b i j : ℕ}

/-- Two uses less than a turn apart that take one slot are one use. -/
theorem slot_inj (hi : a ≤ i) (hi' : i < a + n) (hj : a ≤ j) (hj' : j < a + n)
    (h : i % n = j % n) : i = j := by
  rcases Nat.le_total i j with hij | hij
  · exact Nat.ModEq.eq_of_abs_lt h (by rw [abs_lt]; omega)
  · exact (Nat.ModEq.eq_of_abs_lt h.symm (by rw [abs_lt]; omega)).symm

/-- Two uses of one turn take different slots. -/
theorem slot_ne (hi : a ≤ i) (hi' : i < a + n) (hj : a ≤ j) (hj' : j < a + n)
    (h : i ≠ j) : i % n ≠ j % n := fun h' => h (slot_inj hi hi' hj hj' h')

/-- The use at offset `(i - a) % n` of the window at `a` takes slot `i`. -/
theorem exists_use {i h : ℤ} (hn : 0 < n) (hi : 0 ≤ i) (hi' : i < n) (hh : h = (a % n : ℕ)) :
    ∃ j, a ≤ j ∧ j < a + n ∧ ((j % n : ℕ) : ℤ) = i ∧ (i - h) % n = (j - a : ℕ) := by
  have hpos : (n : ℤ) ≠ 0 := by omega
  have h0 := Int.emod_nonneg (i - h) hpos
  have h1 := Int.emod_lt_of_pos (i - h) (b := (n : ℤ)) (by omega)
  refine ⟨a + ((i - h) % n).toNat, by omega, by omega, ?_, by omega⟩
  have hcast : ((((i - h) % n).toNat : ℕ) : ℤ) = (i - h) % n := Int.toNat_of_nonneg h0
  -- `a` and its slot `h` differ by whole turns
  have hturns : (a : ℤ) + (i - h) = i + n * (a / n) := by
    have := Int.emod_add_mul_ediv (a : ℤ) n
    rw [hh]
    push_cast
    omega
  have hcong : ((a : ℤ) + (i - h) % n) % n = i % n := by
    rw [Int.add_emod_emod, hturns, Int.add_mul_emod_self_left]
  push_cast
  rw [hcast, hcong, Int.emod_eq_of_lt hi hi']

/-- Uses before the end of the array take consecutive slots. -/
theorem slot_add (h : a % n + i < n) : (a + i) % n = a % n + i := by
  rw [Nat.add_mod, Nat.mod_eq_of_lt (a := i) (by omega), Nat.mod_eq_of_lt h]

/-- In the window at `a` the first `k` uses, if they end before the end of the array, are those
that take the `k` slots from that of `a` on. -/
theorem mem_run {k : ℕ} (hk : a % n + k ≤ n) (hi : a ≤ i) (hi' : i < a + n) :
    a % n ≤ i % n ∧ i % n < a % n + k ↔ i < a + k := by
  constructor
  · rintro ⟨h1, h2⟩
    -- the slot is also taken by a use of the run, which is then this one
    have hslot := slot_add (n := n) (a := a) (i := i % n - a % n) (by omega)
    have heq := slot_inj hi hi' (j := a + (i % n - a % n)) (by omega) (by omega) (by omega)
    omega
  · intro hlt
    have hslot := slot_add (n := n) (a := a) (i := i - a) (by omega)
    rw [Nat.add_sub_cancel' hi] at hslot
    omega

/-- The same where the slots are integers. -/
theorem mem_run_int {k : ℕ} {h : ℤ} (hh : h = (a % n : ℕ)) (hk : a % n + k ≤ n) (hi : a ≤ i)
    (hi' : i < a + n) : h ≤ (i % n : ℕ) ∧ ((i % n : ℕ) : ℤ) < h + k ↔ i < a + k := by
  rw [← mem_run hk hi hi', hh]
  omega

end Cyclic
