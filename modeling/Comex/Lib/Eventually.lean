import Comex.Lib.Runs
import Mathlib.Data.Nat.Notation

/-!
# What every run comes to

`Eventually M ok P s` says that from `s` every run of guarded steps comes to a state with
`P`: until then some step can be taken, and no run goes on without it forever.  It is proved
from an invariant under which nothing is stuck, and a measure that every step lowers.
-/

namespace Machine

variable {σ α : Type*}

/-- Whatever steps are taken from `s`, a state with `P` is reached. -/
inductive Eventually (M : Machine σ α) (ok : σ → α → Prop) (P : σ → Prop) : σ → Prop
  | now {s : σ} : P s → Eventually M ok P s
  | later {s : σ} : (∃ a s', ok s a ∧ M.step s a s') →
      (∀ a s', ok s a → M.step s a s' → Eventually M ok P s') → Eventually M ok P s

namespace Eventually

variable {M : Machine σ α} {ok : σ → α → Prop} {P I : σ → Prop} {μ : σ → ℕ}

/-- Nothing is stuck and nothing goes on forever. -/
theorem of_measure (free : ∀ s, I s → P s ∨ ∃ a s', ok s a ∧ M.step s a s')
    (keep : ∀ s a s', I s → ok s a → M.step s a s' → I s')
    (lower : ∀ s a s', ok s a → M.step s a s' → μ s' < μ s) :
    ∀ s, I s → Eventually M ok P s := by
  intro s
  induction h : μ s using Nat.strongRecOn generalizing s with
  | ind n ih =>
    subst h
    intro hs
    rcases free s hs with hp | hstep
    · exact .now hp
    · exact .later hstep fun a s' hok hnext =>
        ih (μ s') (lower s a s' hok hnext) s' rfl (keep s a s' hs hok hnext)

end Eventually

end Machine
