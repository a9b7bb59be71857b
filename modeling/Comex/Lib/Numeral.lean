import Mathlib.Data.List.Basic
import Mathlib.Tactic.IntervalCases

/-!
# Numerals in the notations of C

A numeral that begins with `0x` is hexadecimal, any other that begins with `0` is octal,
and the rest are decimal.  A loop reads digits as long as there are any and multiplies
as it goes; the value wraps.

## Main definitions

* `scan`, `strtoul` — the loop, and the loop after the notation has been found out.
* `Denotes` — what a numeral means.

## Main results

* `strtoul_eq_iff` — **what is read to its end is a numeral.**
* `denotes_toDigits` — a number written in decimal.
-/

namespace Numeral

/-- The value of a digit; 16 for what is not a digit in any base. -/
def digit (c : Char) : ℕ :=
  if c.isDigit then c.toNat - 48
  else if 97 ≤ c.toNat ||| 32 ∧ c.toNat ||| 32 ≤ 102 then (c.toNat ||| 32) - 87
  else 16

/-- The value of digits behind others. -/
def valueFrom (b : ℕ) (ds : List Char) (n : ℕ) : ℕ := ds.foldl (fun n c => n * b + digit c) n

/-- Read digits while there are any. -/
def scan (b m : ℕ) : ℕ → List Char → ℕ × List Char
  | n, [] => (n, [])
  | n, c :: cs => if digit c < b then scan b m ((n * b + digit c) % m) cs else (n, c :: cs)

/-- The base, and where the digits begin. -/
def radix : List Char → ℕ × List Char
  | '0' :: x :: c :: cs =>
    if (x = 'x' ∨ x = 'X') ∧ digit c < 16 then (16, c :: cs) else (8, '0' :: x :: c :: cs)
  | '0' :: cs => (8, '0' :: cs)
  | cs => (10, cs)

/-- The value, wrapped at `m`, and what is behind the digits. -/
def strtoul (m : ℕ) (cs : List Char) : ℕ × List Char := scan (radix cs).1 m 0 (radix cs).2

/-- What a numeral means. -/
inductive Denotes : List Char → ℕ → Prop
  | decimal {v : List Char} (hd : ∀ c ∈ v, digit c < 10) (h0 : v.head? ≠ some '0') :
    Denotes v (valueFrom 10 v 0)
  | octal {v : List Char} (hd : ∀ c ∈ v, digit c < 8) : Denotes ('0' :: v) (valueFrom 8 v 0)
  | hex {x : Char} {v : List Char} (hx : x = 'x' ∨ x = 'X') (hne : v ≠ [])
    (hd : ∀ c ∈ v, digit c < 16) : Denotes ('0' :: x :: v) (valueFrom 16 v 0)

section Scan

variable {b m n : ℕ} {c x : Char} {cs ds : List Char}

@[simp] theorem valueFrom_nil : valueFrom b [] n = n := rfl

@[simp] theorem valueFrom_cons : valueFrom b (c :: cs) n = valueFrom b cs (n * b + digit c) := rfl

theorem valueFrom_append : valueFrom b (cs ++ ds) n = valueFrom b ds (valueFrom b cs n) := by
  rw [valueFrom, List.foldl_append]
  rfl

theorem valueFrom_mod (b m : ℕ) : ∀ (cs : List Char) (n : ℕ),
    valueFrom b cs (n % m) % m = valueFrom b cs n % m := by
  intro cs
  induction cs with
  | nil => exact fun n => Nat.mod_mod n m
  | cons c cs ih =>
    intro n
    rw [valueFrom_cons, valueFrom_cons, ← ih (n % m * b + digit c), ← ih (n * b + digit c)]
    congr 2
    rw [Nat.add_mod, Nat.mul_mod, Nat.mod_mod, ← Nat.mul_mod, ← Nat.add_mod]

/-- The loop stops behind the last of the digits. -/
theorem scan_of_digits (hd : ∀ c ∈ cs, digit c < b) : ∀ n, scan b m (n % m) cs =
    (valueFrom b cs n % m, []) := by
  induction cs with
  | nil => exact fun n => rfl
  | cons c cs ih =>
    intro n
    rw [scan, if_pos (hd c (List.mem_cons_self ..)),
      ih fun c hc => hd c (List.mem_cons_of_mem _ hc), valueFrom_cons, ← valueFrom_mod,
      Nat.add_mod, Nat.mul_mod, Nat.mod_mod, ← Nat.mul_mod, ← Nat.add_mod, valueFrom_mod]

theorem digits_of_scan (h : (scan b m n cs).2 = []) : ∀ c ∈ cs, digit c < b := by
  induction cs generalizing n with
  | nil => exact fun c hc => absurd hc List.not_mem_nil
  | cons c cs ih =>
    rw [scan] at h
    by_cases hc : digit c < b
    · rw [if_pos hc] at h
      intro d hd
      rcases List.mem_cons.mp hd with rfl | hd
      · exact hc
      · exact ih h d hd
    · rw [if_neg hc] at h
      cases h

/-- What the loop reads to its end. -/
theorem scan_eq_iff {k : ℕ} : scan b m 0 cs = (k, []) ↔
    (∀ c ∈ cs, digit c < b) ∧ k = valueFrom b cs 0 % m := by
  constructor
  · intro h
    have hd := digits_of_scan (by rw [h])
    have hscan := scan_of_digits (m := m) hd 0
    rw [Nat.zero_mod, h] at hscan
    exact ⟨hd, (Prod.mk.inj hscan).1⟩
  · rintro ⟨hd, rfl⟩
    have hscan := scan_of_digits (m := m) hd 0
    rwa [Nat.zero_mod] at hscan

theorem radix_decimal (h0 : cs.head? ≠ some '0') : radix cs = (10, cs) := by
  cases cs with
  | nil => rfl
  | cons c cs =>
    have hc : c ≠ '0' := fun hc => h0 (congrArg some hc)
    unfold radix
    split <;> simp_all

theorem radix_hex (hx : x = 'x' ∨ x = 'X') (hd : digit c < 16) :
    radix ('0' :: x :: c :: cs) = (16, c :: cs) := if_pos ⟨hx, hd⟩

theorem radix_octal (h : ∀ x c ds, cs = x :: c :: ds → ¬ ((x = 'x' ∨ x = 'X') ∧ digit c < 16)) :
    radix ('0' :: cs) = (8, '0' :: cs) := by
  match cs with
  | [] => rfl
  | [x] => rfl
  | x :: c :: ds => exact if_neg (h x c ds rfl)

theorem digit_x (hx : x = 'x' ∨ x = 'X') : digit x = 16 := by
  rcases hx with rfl | rfl <;> decide

/-- **What is read to its end is a numeral**: the radix is told by the first two characters, and
the cases of a numeral are those of the radix. -/
theorem strtoul_eq_iff {k : ℕ} : strtoul m cs = (k, []) ↔ ∃ n, Denotes cs n ∧ k = n % m := by
  by_cases h0 : cs.head? = some '0'
  · obtain ⟨cs, rfl⟩ : ∃ ds, cs = '0' :: ds := by
      cases cs with
      | nil => cases h0
      | cons c cs => exact ⟨cs, by rw [Option.some.inj h0]⟩
    by_cases hhex : ∃ x c ds, cs = x :: c :: ds ∧ (x = 'x' ∨ x = 'X') ∧ digit c < 16
    · -- hexadecimal: no octal digit is an `x`
      obtain ⟨x, c, ds, rfl, hx, hc⟩ := hhex
      rw [strtoul, radix_hex hx hc, scan_eq_iff]
      constructor
      · exact fun h => ⟨_, .hex hx (List.cons_ne_nil c ds) h.1, h.2⟩
      · rintro ⟨n, hn, rfl⟩
        cases hn with
        | decimal hd h0' => exact absurd h0 h0'
        | octal hd =>
          have := hd x (List.mem_cons_self ..)
          rw [digit_x hx] at this
          omega
        | hex hx hne hd => exact ⟨hd, rfl⟩
    · -- octal, the leading zero among its digits
      have hoctal : ∀ x c ds, cs = x :: c :: ds → ¬ ((x = 'x' ∨ x = 'X') ∧ digit c < 16) :=
        fun x c ds hcs h => hhex ⟨x, c, ds, hcs, h⟩
      rw [strtoul, radix_octal hoctal, scan_eq_iff]
      constructor
      · rintro ⟨hd, hk⟩
        exact ⟨_, .octal fun c hc => hd c (List.mem_cons_of_mem _ hc), hk⟩
      · rintro ⟨n, hn, rfl⟩
        cases hn with
        | decimal hd h0' => exact absurd h0 h0'
        | octal hd =>
          refine ⟨fun c hc => ?_, rfl⟩
          rcases List.mem_cons.mp hc with rfl | hc
          · show digit '0' < 8
            decide
          · exact hd c hc
        | hex hx hne hd =>
          rename_i x v
          obtain ⟨c, ds, rfl⟩ := List.exists_cons_of_ne_nil hne
          exact absurd ⟨hx, hd c (List.mem_cons_self ..)⟩ (hoctal x c ds rfl)
  · rw [strtoul, radix_decimal h0, scan_eq_iff]
    constructor
    · exact fun h => ⟨_, .decimal h.1 h0, h.2⟩
    · rintro ⟨n, hn, rfl⟩
      cases hn with
      | decimal hd _ => exact ⟨hd, rfl⟩
      | octal hd => exact absurd rfl h0
      | hex hx hne hd => exact absurd rfl h0

theorem digit_digitChar {d : ℕ} (hd : d < 10) : digit d.digitChar = d := by
  interval_cases d <;> decide

/-- What is known of the decimal digits of a number. -/
theorem toDigits_spec (n : ℕ) : (∀ c ∈ Nat.toDigits 10 n, digit c < 10) ∧
    valueFrom 10 (Nat.toDigits 10 n) 0 = n ∧
      (0 < n → (Nat.toDigits 10 n).head? ≠ some '0') := by
  induction n using Nat.strong_induction_on with
  | _ n ih =>
    by_cases hlt : n < 10
    · rw [Nat.toDigits_of_lt_base hlt]
      refine ⟨fun c hc => ?_, ?_, fun hpos => ?_⟩
      · rw [List.mem_singleton.mp hc, digit_digitChar hlt]
        exact hlt
      · rw [valueFrom_cons, valueFrom_nil, digit_digitChar hlt, Nat.zero_mul, Nat.zero_add]
      · interval_cases n <;> decide
    · have hge := Nat.le_of_not_lt hlt
      obtain ⟨hd, hval, hhead⟩ := ih (n / 10) (Nat.div_lt_self (by omega) (by decide))
      have hmod : n % 10 < 10 := Nat.mod_lt n (by decide)
      rw [Nat.toDigits_of_base_le (by decide) hge]
      refine ⟨fun c hc => ?_, ?_, fun _ => ?_⟩
      · rcases List.mem_append.mp hc with hc | hc
        · exact hd c hc
        · rw [List.mem_singleton.mp hc, digit_digitChar hmod]
          exact hmod
      · rw [valueFrom_append, hval, valueFrom_cons, valueFrom_nil, digit_digitChar hmod]
        omega
      · obtain ⟨c, cs, hcs⟩ := List.exists_cons_of_ne_nil (@Nat.toDigits_ne_nil (n / 10) 10)
        have hhead := hhead (Nat.div_pos hge (by decide))
        rw [hcs] at hhead ⊢
        exact hhead

/-- A number written in decimal. -/
theorem denotes_toDigits (n : ℕ) : Denotes (Nat.toDigits 10 n) n := by
  obtain ⟨hd, hval, hhead⟩ := toDigits_spec n
  rcases Nat.eq_zero_or_pos n with rfl | hpos
  · exact .octal fun c hc => absurd hc List.not_mem_nil
  · have hn := Denotes.decimal hd (hhead hpos)
    rwa [hval] at hn

end Scan

end Numeral
