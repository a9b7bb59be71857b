import Mathlib.Algebra.Order.Ring.Int
import Mathlib.Data.List.Basic
import Mathlib.Tactic.Ring

/-!
# Machine words as bytes

Integers of `w` bytes in two's complement, the low byte first, and arrays of them.
What is written is read back when it fits, whatever follows it.

* `toInt_ofInt` — an integer.
* `readArray_array` — an array.
* `ofBytes_reverse` — a word with its bytes in network order.
-/

namespace Words

/-- The `w` low bytes of `x`, the lowest first. -/
def toBytes : ℕ → ℕ → List UInt8
  | 0, _ => []
  | w + 1, x => UInt8.ofNat x :: toBytes w (x / 256)

/-- The number some bytes stand for. -/
def ofBytes : List UInt8 → ℕ
  | [] => 0
  | b :: bs => b.toNat + 256 * ofBytes bs

@[simp] theorem length_toBytes (w x : ℕ) : (toBytes w x).length = w := by
  induction w generalizing x with
  | zero => rfl
  | succ w ih => rw [toBytes, List.length_cons, ih]

theorem ofBytes_toBytes (w x : ℕ) : ofBytes (toBytes w x) = x % 256 ^ w := by
  induction w generalizing x with
  | zero => rw [toBytes, ofBytes, pow_zero, Nat.mod_one]
  | succ w ih =>
    have hbyte : (UInt8.ofNat x).toNat = x % 256 := UInt8.toNat_ofNat'
    rw [toBytes, ofBytes, ih, hbyte, Nat.pow_succ', Nat.mod_mul]

/-! ### Integers -/

/-- An integer of `w` bytes. -/
def ofInt (w : ℕ) (x : ℤ) : List UInt8 := toBytes w (x % 256 ^ w).toNat

/-- The integer in the first `w` bytes. -/
def toInt (w : ℕ) (bs : List UInt8) : ℤ := (ofBytes (bs.take w) : ℤ).bmod (256 ^ w)

/-- An integer has a place in `w` bytes. -/
def Fits (w : ℕ) (x : ℤ) : Prop := -256 ^ w ≤ x * 2 ∧ x * 2 < 256 ^ w

@[simp] theorem length_ofInt (w : ℕ) (x : ℤ) : (ofInt w x).length = w := length_toBytes w _

/-- **An integer that fits is read back.** -/
theorem toInt_ofInt {w : ℕ} {x : ℤ} (h : Fits w x) (rest : List UInt8) :
    toInt w (ofInt w x ++ rest) = x := by
  have hpos : (0 : ℤ) < 256 ^ w := pow_pos (by decide) w
  have hmod := Int.emod_nonneg x hpos.ne'
  have hlt := Int.emod_lt_of_pos x hpos
  have hcast : ((256 ^ w : ℕ) : ℤ) = 256 ^ w := by push_cast; rfl
  have hsmall : (x % 256 ^ w).toNat < 256 ^ w := by omega
  rw [toInt, ofInt, List.take_left' (length_toBytes w _), ofBytes_toBytes,
    Nat.mod_eq_of_lt hsmall, Int.toNat_of_nonneg hmod, ← hcast, Int.emod_bmod]
  exact Int.bmod_eq_of_le_mul_two (by rw [hcast]; exact h.1) (by rw [hcast]; exact h.2)

/-! ### Arrays -/

/-- An array of integers of `w` bytes. -/
def array (w : ℕ) (xs : List ℤ) : List UInt8 := xs.flatMap (ofInt w)

/-- The first `n` integers of an array. -/
def readArray (w : ℕ) : ℕ → List UInt8 → List ℤ
  | 0, _ => []
  | n + 1, bs => toInt w bs :: readArray w n (bs.drop w)

@[simp] theorem length_array (w : ℕ) (xs : List ℤ) : (array w xs).length = xs.length * w := by
  induction xs with
  | nil => rw [array, List.flatMap_nil, List.length_nil, List.length_nil, Nat.zero_mul]
  | cons x xs ih =>
    rw [array] at ih ⊢
    rw [List.flatMap_cons, List.length_append, ih, length_ofInt, List.length_cons, Nat.succ_mul,
      Nat.add_comm]

/-- **An array whose integers fit is read back.** -/
theorem readArray_array {w : ℕ} {xs : List ℤ} (h : ∀ x ∈ xs, Fits w x) (rest : List UInt8) :
    readArray w xs.length (array w xs ++ rest) = xs := by
  induction xs with
  | nil => rfl
  | cons x xs ih =>
    have happ : array w (x :: xs) ++ rest = ofInt w x ++ (array w xs ++ rest) := by
      rw [array, List.flatMap_cons, List.append_assoc]
      rfl
    rw [List.length_cons, readArray, happ, toInt_ofInt (h x (List.mem_cons_self ..)),
      List.drop_left' (length_ofInt w x), ih fun y hy => h y (List.mem_cons_of_mem _ hy)]

/-! ### Network order -/

/-- A word whose bytes were turned round twice is the word. -/
theorem ofBytes_reverse {w x : ℕ} (h : x < 256 ^ w) (rest : List UInt8) :
    ofBytes (((toBytes w x).reverse ++ rest).take w).reverse = x := by
  have hlen : (toBytes w x).reverse.length = w := by rw [List.length_reverse, length_toBytes]
  rw [List.take_left' hlen, List.reverse_reverse, ofBytes_toBytes, Nat.mod_eq_of_lt h]

end Words
