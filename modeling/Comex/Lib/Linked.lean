import Mathlib.Logic.Function.Basic
import Mathlib.Tactic.Common

/-!
# Two indexes of one relation

A table from keys to values and a back reference from each value to its key: the
two are linked when each is read off the other.  Putting a new pair into both and
taking a pair out of both keeps them linked.
-/

/-- The back references are the inverse of the table. -/
def Linked {κ β : Type*} (f : κ → Option β) (g : β → Option κ) : Prop :=
  ∀ k b, f k = some b ↔ g b = some k

namespace Linked

variable {κ β : Type*} {f : κ → Option β} {g : β → Option κ}

/-- A key has one value, so a value that is back referenced twice is one value. -/
theorem inj (h : Linked f g) {k : κ} {b c : β} (hb : g b = some k) (hc : g c = some k) : b = c :=
  Option.some.inj (((h k b).mpr hb).symm.trans ((h k c).mpr hc))

variable [DecidableEq κ] [DecidableEq β]

theorem insert (h : Linked f g) {k : κ} {b : β} (hk : f k = none) (hb : g b = none) :
    Linked (Function.update f k (some b)) (Function.update g b (some k)) := by
  intro k' b'
  rw [Function.update_apply, Function.update_apply]
  by_cases hkk : k' = k
  · subst hkk
    by_cases hbb : b' = b
    · simp [hbb]
    · rw [if_pos rfl, if_neg hbb, ← h k' b', hk]
      simp [Ne.symm hbb]
  · by_cases hbb : b' = b
    · subst hbb
      rw [if_neg hkk, if_pos rfl, h k' b', hb]
      simp [Ne.symm hkk]
    · rw [if_neg hkk, if_neg hbb]
      exact h k' b'

theorem erase (h : Linked f g) {k : κ} {b : β} (hb : g b = some k) :
    Linked (Function.update f k none) (Function.update g b none) := by
  intro k' b'
  rw [Function.update_apply, Function.update_apply]
  by_cases hkk : k' = k
  · subst hkk
    rw [if_pos rfl]
    by_cases hbb : b' = b
    · simp [hbb]
    · rw [if_neg hbb]
      -- only `b` refers back to the key
      exact ⟨fun hc => absurd hc (by simp), fun hc => absurd (h.inj hc hb) hbb⟩
  · rw [if_neg hkk]
    by_cases hbb : b' = b
    · subst hbb
      rw [if_pos rfl, h k' b', hb]
      simp [Ne.symm hkk]
    · rw [if_neg hbb]
      exact h k' b'

end Linked
