import Mathlib.Tactic.Common

/-!
# Regions of a memory

A memory is a function from addresses.  Copying into a region changes the region and
nothing else, so what another region holds stays, and a region made of blocks of one
size can be read a block at a time.

* `Holds.copy` — what was copied is there.
* `Holds.block` — a block of what a region holds.
* `Holds.copy_blocks` — what is elsewhere stays.
-/

namespace Region

variable {β : Type*} {mem : ℕ → β} {a b n m : ℕ} {bytes bytes' : ℕ → β}

/-- The memory with `n` places from `a` on replaced. -/
def copy (mem : ℕ → β) (a n : ℕ) (bytes : ℕ → β) : ℕ → β := fun x =>
  if a ≤ x ∧ x < a + n then bytes (x - a) else mem x

/-- The `n` places from `a` on hold `bytes`. -/
def Holds (mem : ℕ → β) (a n : ℕ) (bytes : ℕ → β) : Prop := ∀ k < n, mem (a + k) = bytes k

theorem copy_outside {x : ℕ} (h : x < a ∨ a + n ≤ x) : copy mem a n bytes x = mem x :=
  if_neg (by omega)

theorem Holds.copy (mem : ℕ → β) (a n : ℕ) (bytes : ℕ → β) :
    Holds (copy mem a n bytes) a n bytes := by
  intro k hk
  rw [Region.copy, if_pos (by omega), Nat.add_sub_cancel_left]

/-- The `i`-th block of `m` places. -/
theorem Holds.block {i : ℕ} (h : Holds mem a (n * m) bytes) (hi : i < n) :
    Holds mem (a + i * m) m fun k => bytes (i * m + k) := fun k hk => by
  have hle : (i + 1) * m ≤ n * m := Nat.mul_le_mul_right m hi
  rw [Nat.add_assoc]
  exact h _ (by rw [Nat.succ_mul] at hle; omega)

theorem Holds.congr (h : Holds mem a n bytes) (heq : ∀ k < n, bytes k = bytes' k) :
    Holds mem a n bytes' := fun k hk => (h k hk).trans (heq k hk)

/-- A place of `n` blocks is in one of them. -/
theorem exists_block {x : ℕ} (h0 : a ≤ x) (h1 : x < a + n * m) :
    ∃ i < n, a + i * m ≤ x ∧ x < a + i * m + m := by
  have hm : 0 < m := Nat.pos_of_ne_zero fun hz => by
    rw [hz, Nat.mul_zero] at h1
    omega
  have hlt : (x - a) / m < n := Nat.div_lt_of_lt_mul (by rw [Nat.mul_comm]; omega)
  have hdiv := Nat.div_add_mod (x - a) m
  have hmod := Nat.mod_lt (x - a) hm
  rw [Nat.mul_comm] at hdiv
  exact ⟨(x - a) / m, hlt, by omega, by omega⟩

/-- Blocks that are all apart from a region are together. -/
theorem Holds.copy_blocks (h : Holds mem a m bytes)
    (hap : ∀ i < n, a + m ≤ b + i * m ∨ b + i * m + m ≤ a) :
    Holds (Region.copy mem b (n * m) bytes') a m bytes := fun k hk => by
  rw [copy_outside]
  · exact h k hk
  · by_contra hc
    obtain ⟨i, hi, h0, h1⟩ := exists_block (n := n) (m := m) (a := b) (x := a + k) (by omega)
      (by omega)
    have := hap i hi
    omega

end Region
