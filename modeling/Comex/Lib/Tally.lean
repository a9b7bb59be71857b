import Mathlib.Logic.Function.Basic
import Mathlib.Tactic.Common

/-!
# Counting in a window of a table

How many of the `n` places from `a` on hold a value with a property, and what an
assignment to one place makes of that.

* `number_update` — one place goes, one comes.
* `number_eq_zero_iff` — none has the property.
-/

namespace Tally

variable {β : Type*} {p : β → Bool} {f : ℕ → β} {a n i : ℕ} {x : β}

/-- The number of places in the window of `n` from `a` whose value has property `p`. -/
def number (p : β → Bool) (f : ℕ → β) (a n : ℕ) : ℕ := (List.range' a n).countP fun i => p (f i)

@[simp] theorem number_zero : number p f a 0 = 0 := rfl

theorem number_succ : number p f a (n + 1) = (p (f a)).toNat + number p f (a + 1) n := by
  simp only [number, List.range'_succ, List.countP_cons]
  cases p (f a) <;> simp [Nat.add_comm]

theorem number_congr {γ : Type*} {q : γ → Bool} {g : ℕ → γ}
    (h : ∀ i, a ≤ i → i < a + n → p (f i) = q (g i)) : number p f a n = number q g a n := by
  apply List.countP_congr
  intro i hi
  obtain ⟨h1, h2⟩ := List.mem_range'_1.mp hi
  rw [h i h1 h2]

theorem number_eq_zero_iff : number p f a n = 0 ↔ ∀ i, a ≤ i → i < a + n → p (f i) = false := by
  simp only [number, List.countP_eq_zero, List.mem_range'_1, Bool.not_eq_true, and_imp]

/-- An assignment outside the window does not matter. -/
theorem number_update_of_lt (h : i < a) : number p (Function.update f i x) a n = number p f a n :=
  number_congr fun j hj _ => by rw [Function.update_of_ne (by omega)]

/-- **An assignment**: the old value no longer counts, the new one does. -/
theorem number_update (h : a ≤ i) (h' : i < a + n) :
    number p (Function.update f i x) a n + (p (f i)).toNat =
      number p f a n + (p x).toNat := by
  induction n generalizing a with
  | zero => omega
  | succ n ih =>
    rw [number_succ, number_succ]
    rcases Nat.lt_or_eq_of_le h with hlt | rfl
    · have hrest := ih (a := a + 1) (by omega) (by omega)
      rw [Function.update_of_ne (by omega)]
      omega
    · rw [Function.update_self, number_update_of_lt (show a < a + 1 by omega)]
      omega

end Tally
