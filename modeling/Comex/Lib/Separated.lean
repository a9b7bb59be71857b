import Mathlib.Data.List.TakeWhile

/-!
# Text written and read item by item

A loop writes every item and behind it a separator, behind the last one something
else.  What comes out is the items with separators between them.  A loop that cuts the
text at the first separator, again and again, gets them back.

## Main definitions

* `cut` — the text before the first separator, and that behind it.

## Main results

* `flatMap_terminated` — what the writing loop writes.
* `splitOn_cut` — what the reading loop reads.
-/

namespace Separated

variable {α ι : Type*}

/-- A loop that skips some of its items. -/
theorem flatMap_filter (xs : List ι) (p : ι → Bool) (f : ι → List α) :
    (xs.flatMap fun i => if p i then f i else []) = (xs.filter p).flatMap f := by
  induction xs with
  | nil => rfl
  | cons x xs ih =>
    rw [List.flatMap_cons, ih, List.filter_cons]
    cases p x with
    | true => rfl
    | false => rfl

/-- **Items with a separator behind each but the last are items with separators between.** -/
theorem flatMap_terminated {sep last : List α} {f g : ι → List α} {y : ι}
    (hy : g y = f y ++ last) : ∀ xs : List ι, (∀ x ∈ xs, g x = f x ++ sep) →
      (xs ++ [y]).flatMap g = sep.intercalate ((xs ++ [y]).map f) ++ last := by
  intro xs
  induction xs with
  | nil =>
    intro _
    rw [List.nil_append, List.flatMap_singleton, List.map_singleton, List.intercalate_singleton, hy]
  | cons x xs ih =>
    intro h
    have hne : (xs ++ [y]).map f ≠ [] := by simp
    rw [List.cons_append, List.flatMap_cons, h x (List.mem_cons_self ..),
      ih fun z hz => h z (List.mem_cons_of_mem _ hz), List.map_cons,
      List.intercalate_cons_of_ne_nil hne]
    simp only [List.append_assoc]

/-! ### Reading -/

variable [DecidableEq α] {sep : α} {s a b : List α}

/-- The text before the first separator and, if there is one, that behind it. -/
def cut (sep : α) (s : List α) : List α × Option (List α) :=
  (s.takeWhile (· ≠ sep), match s.dropWhile (· ≠ sep) with
    | [] => none
    | _ :: rest => some rest)

theorem cut_of_notMem (h : sep ∉ s) : cut sep s = (s, none) := by
  have hne : ∀ x ∈ s, decide (x ≠ sep) = true := fun x hx =>
    decide_eq_true fun hxs => h (hxs ▸ hx)
  rw [cut, List.takeWhile_eq_self_iff.mpr hne, List.dropWhile_eq_nil_iff.mpr hne]

theorem cut_append (h : sep ∉ a) : cut sep (a ++ sep :: b) = (a, some b) := by
  have hne : ∀ x ∈ a, decide (x ≠ sep) = true := fun x hx =>
    decide_eq_true fun hxs => h (hxs ▸ hx)
  rw [cut, List.takeWhile_append_of_pos hne, List.dropWhile_append_of_pos hne]
  simp only [ne_eq, not_true_eq_false, decide_false, Bool.false_eq_true, not_false_eq_true,
    List.takeWhile_cons_of_neg, List.dropWhile_cons_of_neg, List.append_nil]

/-- Every text has a separator or none. -/
theorem notMem_or_append (sep : α) (s : List α) :
    sep ∉ s ∨ ∃ a b, s = a ++ sep :: b ∧ sep ∉ a := by
  by_cases h : sep ∈ s
  · obtain ⟨a, b, hs, ha⟩ := List.eq_append_cons_of_mem h
    exact Or.inr ⟨a, b, hs, ha⟩
  · exact Or.inl h

/-- **One cut gets the first item.** -/
theorem splitOn_cut (sep : α) (s : List α) :
    s.splitOn sep = (cut sep s).1 :: ((cut sep s).2.map (List.splitOn sep)).getD [] := by
  rcases notMem_or_append sep s with h | ⟨a, b, rfl, ha⟩
  · rw [cut_of_notMem h]
    exact List.splitOn_eq_singleton h
  · rw [cut_append ha]
    exact List.splitOn_append_cons_self_of_not_mem ha b

theorem length_cut (h : (cut sep s).2 = some b) : b.length < s.length := by
  rcases notMem_or_append sep s with hs | ⟨a, c, rfl, ha⟩
  · rw [cut_of_notMem hs] at h
    cases h
  · rw [cut_append ha] at h
    cases h
    simp only [List.length_append, List.length_cons]
    omega

end Separated
