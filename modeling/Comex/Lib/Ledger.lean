import Mathlib.Data.List.Perm.Lattice
import Mathlib.Data.List.Count
import Mathlib.Data.Int.Notation
import Mathlib.Tactic.Common

/-!
# Ledgers of single tokens

A ledger counts how often a token lies at each place.  The token is *kept* when
it lies once at exactly one place, and *absent* when it lies nowhere.  A move takes
copies from one place to another; it can make a kept token neither vanish nor
multiply, so a system that only moves keeps every token through any run.

## Main results

* `Kept.move`, `Absent.move` — the effect of one move.
* `Kept.move₂` — two moves through a common place at once.
* `count_span` — how often a number lies in a run of consecutive ones.
-/

namespace Ledger

variable {π : Type*} {f g : π → ℕ} {a b c : π} {m n : ℕ}

/-- The token lies at exactly one place, once. -/
def Kept (f : π → ℕ) : Prop := ∃ a, f a = 1 ∧ ∀ b, b ≠ a → f b = 0

/-- The token lies nowhere. -/
def Absent (f : π → ℕ) : Prop := ∀ a, f a = 0

/-- `g` arises from `f` by moving `n` copies from `a` to `b`. -/
structure Move (f g : π → ℕ) (a b : π) (n : ℕ) : Prop where
  ne : a ≠ b
  source : g a + n = f a
  target : g b = f b + n
  frame : ∀ c, c ≠ a → c ≠ b → g c = f c

theorem Absent.move (h : Absent f) (hm : Move f g a b n) : Absent g := by
  have hn : n = 0 := by
    have := hm.source
    rw [h a] at this
    omega
  intro c
  by_cases ha : c = a
  · rw [ha]
    have := hm.source
    rw [h a] at this
    omega
  by_cases hb : c = b
  · rw [hb, hm.target, h b, hn]
  · rw [hm.frame c ha hb, h c]

theorem Kept.le_one (h : Kept f) (a : π) : f a ≤ 1 := by
  obtain ⟨b, hb, hother⟩ := h
  by_cases hab : a = b
  · rw [hab]
    exact Nat.le_of_eq hb
  · rw [hother a hab]
    exact Nat.zero_le 1

/-- A kept token lies at one place only. -/
theorem Kept.eq_zero (h : Kept f) (ha : f a = 1) (hab : b ≠ a) : f b = 0 := by
  obtain ⟨c, hc, hother⟩ := h
  have hac : a = c := by
    by_contra hne
    rw [hother a hne] at ha
    exact absurd ha (by decide)
  rw [hac] at hab
  exact hother b hab

theorem Kept.move (h : Kept f) (hm : Move f g a b n) : Kept g := by
  have hle := h.le_one a
  have hsource := hm.source
  by_cases hn : n = 0
  · -- nothing moves
    have hgf : g = f := by
      funext c
      by_cases ha : c = a
      · rw [ha]
        omega
      by_cases hb : c = b
      · rw [hb, hm.target, hn, Nat.add_zero]
      · exact hm.frame c ha hb
    rw [hgf]
    exact h
  · have ha : f a = 1 := by omega
    refine ⟨b, ?_, fun c hc => ?_⟩
    · rw [hm.target, h.eq_zero ha hm.ne.symm]
      omega
    · by_cases hca : c = a
      · rw [hca]
        omega
      · rw [hm.frame c hca hc, h.eq_zero ha hca]

/-- Copies move from `a` to `b` while others move from `b` to `c`. -/
structure Move₂ (f g : π → ℕ) (a b c : π) (m n : ℕ) : Prop where
  ne : a ≠ b ∧ b ≠ c ∧ a ≠ c
  source : g a + m = f a
  through : g b + n = f b + m
  enough : n ≤ f b
  target : g c = f c + n
  frame : ∀ d, d ≠ a → d ≠ b → d ≠ c → g d = f d

/-- Two moves at once are one after the other. -/
theorem Move₂.split (h : Move₂ f g a b c m n) :
    ∃ k, Move f k b c n ∧ Move k g a b m := by
  classical
  obtain ⟨hab, hbc, hac⟩ := h.ne
  have hthrough := h.through
  have henough := h.enough
  refine ⟨fun d => if d = b then f b - n else if d = c then f c + n else f d,
    ⟨hbc, ?_, ?_, ?_⟩, ⟨hab, ?_, ?_, ?_⟩⟩
  · simp only [if_pos]
    omega
  · simp only [if_neg hbc.symm, if_pos]
  · intro d hd hd'
    simp only [if_neg hd, if_neg hd']
  · simp only [if_neg hab, if_neg hac]
    exact h.source
  · simp only [if_pos]
    omega
  · intro d hd hd'
    by_cases hdc : d = c
    · simp only [hdc, if_neg hbc.symm, if_pos]
      exact h.target
    · simp only [if_neg hd', if_neg hdc]
      exact h.frame d hd hd' hdc

theorem Kept.move₂ (h : Kept f) (hm : Move₂ f g a b c m n) : Kept g := by
  obtain ⟨k, h1, h2⟩ := hm.split
  exact (h.move h1).move h2

theorem Absent.move₂ (h : Absent f) (hm : Move₂ f g a b c m n) : Absent g := by
  obtain ⟨k, h1, h2⟩ := hm.split
  exact (h.move h1).move h2

/-- A place that nothing has come to changes nothing. -/
theorem Kept.option (h : Kept f) : Kept fun o : Option π => o.elim 0 f := by
  obtain ⟨a, ha, hother⟩ := h
  refine ⟨some a, ha, fun o ho => ?_⟩
  cases o with
  | none => rfl
  | some b => exact hother b fun hc => ho (congrArg some hc)

theorem Absent.option (h : Absent f) : Absent fun o : Option π => o.elim 0 f := by
  intro o
  cases o with
  | none => rfl
  | some b => exact h b

/-! ### Runs of consecutive numbers -/

/-- The `n` numbers from `a` on. -/
def span (a : ℤ) (n : ℕ) : List ℤ := (List.range n).map fun i => a + (i : ℕ)

theorem mem_span {a p : ℤ} {n : ℕ} : p ∈ span a n ↔ a ≤ p ∧ p < a + n := by
  simp only [span, List.mem_map, List.mem_range]
  constructor
  · rintro ⟨i, hi, rfl⟩
    omega
  · rintro ⟨h1, h2⟩
    exact ⟨(p - a).toNat, by omega, by omega⟩

theorem nodup_span (a : ℤ) (n : ℕ) : (span a n).Nodup :=
  List.Nodup.map (fun i j h => by
    change a + (i : ℤ) = a + (j : ℤ) at h
    omega) List.nodup_range

theorem count_span (a p : ℤ) (n : ℕ) :
    (span a n).count p = if a ≤ p ∧ p < a + n then 1 else 0 := by
  by_cases h : a ≤ p ∧ p < a + n
  · rw [if_pos h]
    exact List.count_eq_one_of_mem (nodup_span a n) (mem_span.mpr h)
  · rw [if_neg h]
    exact List.count_eq_zero_of_not_mem fun hmem => h (mem_span.mp hmem)

theorem span_zero (a : ℤ) : span a 0 = [] := rfl

theorem span_one (a : ℤ) : span a 1 = [a] := by simp [span]

theorem span_add (a : ℤ) (m n : ℕ) : span a (m + n) = span a m ++ span (a + m) n := by
  simp only [span, List.range_add, List.map_append, List.map_map]
  congr 1
  apply List.map_congr_left
  intro i _
  simp only [Function.comp_apply]
  omega

theorem span_succ (a : ℤ) (n : ℕ) : span a (n + 1) = span a n ++ [a + n] := by
  rw [span_add, span_one]

theorem span_cons (a : ℤ) (n : ℕ) : span a (n + 1) = a :: span (a + 1) n := by
  rw [Nat.add_comm, span_add, span_one]
  rfl

end Ledger
