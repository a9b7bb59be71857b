import Mathlib.Data.Finset.Basic
import Mathlib.Tactic.Common

/-!
# Logs of lock operations

What a call does to a family of mutexes is the list of its acquisitions and releases, in
order.  The call is balanced if it releases only what it has acquired itself, and returns
with the mutexes held that were held when it began.

## Main definitions

* `Locks.Event` — a mutex is acquired or released.
* `Locks.held` — the mutexes held after a log.
* `Locks.Balanced` — a log that keeps them.
-/

namespace Locks

/-- A mutex is acquired or released. -/
inductive Event (μ : Type*)
  | lock (m : μ)
  | unlock (m : μ)
  deriving DecidableEq

variable {μ : Type*} [DecidableEq μ] {m m' : μ} {log : List (Event μ)}

/-- The mutexes held after a log by a thread that held `H` before. -/
def held : Finset μ → List (Event μ) → Finset μ
  | H, [] => H
  | H, .lock m :: log => held (insert m H) log
  | H, .unlock m :: log => held (H.erase m) log

/-- A thread that holds `H` can have the log: it acquires no mutex twice. -/
def Possible : Finset μ → List (Event μ) → Prop
  | _, [] => True
  | H, .lock m :: log => m ∉ H ∧ Possible (insert m H) log
  | H, .unlock m :: log => Possible (H.erase m) log

/-- Every mutex released is one of `own`, or was acquired in the log and not released since. -/
def Owned : Finset μ → List (Event μ) → Prop
  | _, [] => True
  | own, .lock m :: log => Owned (insert m own) log
  | own, .unlock m :: log => m ∈ own ∧ Owned (own.erase m) log

/-- A call with this log returns with the mutexes held that it began with, and has not released
any it had not acquired. -/
structure Balanced (log : List (Event μ)) : Prop where
  owned : Owned ∅ log
  returns : ∀ H, Possible H log → held H log = H

theorem balanced_nil : Balanced ([] : List (Event μ)) := ⟨trivial, fun _ _ => rfl⟩

theorem owned_section : Owned ∅ (.lock m :: .unlock m :: log) ↔ Owned ∅ log := by
  simp only [Owned, Finset.mem_insert_self, true_and, Finset.erase_insert (Finset.notMem_empty m)]

/-- A critical section before a balanced log. -/
theorem Balanced.section (h : Balanced log) : Balanced (.lock m :: .unlock m :: log) where
  owned := owned_section.mpr h.owned
  returns := by
    intro H hpos
    obtain ⟨hm, hrest⟩ := hpos
    rw [Possible, Finset.erase_insert hm] at hrest
    simp only [held, Finset.erase_insert hm]
    exact h.returns H hrest

/-- After one acquisition only that mutex can be released. -/
theorem eq_of_owned (h : Owned ∅ (.lock m :: .unlock m' :: log)) : m' = m := by
  simpa [Owned] using h.1

/-- A mutex that is never released stays held. -/
theorem not_balanced_lock : ¬ Balanced [Event.lock m] := by
  intro h
  have hret := h.returns ∅ ⟨Finset.notMem_empty m, trivial⟩
  exact Finset.insert_ne_empty m ∅ hret

end Locks
