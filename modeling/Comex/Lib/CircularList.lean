import Mathlib.Data.List.Basic
import Mathlib.Data.List.Nodup
import Mathlib.Logic.Function.Basic
import Mathlib.Tactic.Common

/-!
# Circular doubly linked lists

A memory gives every node a `next` and a `prev` link.  A list is a head whose links
lead round through its elements and back; a segment is a part of that way, with the
nodes at its two ends.  Adding and removing a node are a few assignments to links,
some of which may be to the same node, and what they do is said on the sequences.

Several heads share a memory as a *family* when their lists have no node in common
and every other node is linked to itself.

## Main definitions

* `Memory` with `init`, `add`, `addTail`, `del`, `isEmpty` — links and what is done to them.
* `IsList` — the elements of a head, in order.
* `Family` — the lists of several heads.

## Main results

* `IsList.unique`, `IsList.inverse` — the links determine the elements, and are inverse.
* `Family.add`, `Family.addTail`, `Family.del` — **one list changes as a sequence does, the
  others not at all.**
-/

namespace Circular

/-- The links of all nodes. -/
structure Memory (α : Type*) where
  next : α → α
  prev : α → α

namespace Memory

variable {α : Type*} [DecidableEq α] (m : Memory α)

/-- `x->next = y`. -/
def setNext (x y : α) : Memory α := { m with next := Function.update m.next x y }

/-- `x->prev = y`. -/
def setPrev (x y : α) : Memory α := { m with prev := Function.update m.prev x y }

/-- A node linked to itself. -/
def init (x : α) : Memory α := (m.setNext x x).setPrev x x

/-- A head with no element. -/
def isEmpty (h : α) : Bool := m.next h == h

/-- A node goes between two that follow each other. -/
def insert (x prev next : α) : Memory α :=
  (((m.setPrev next x).setNext x next).setPrev x prev).setNext prev x

/-- A node goes right behind the head. -/
def add (x h : α) : Memory α := m.insert x h (m.next h)

/-- A node goes right before the head. -/
def addTail (x h : α) : Memory α := m.insert x (m.prev h) h

/-- Two nodes are made to follow each other. -/
def unlink (prev next : α) : Memory α := (m.setPrev next prev).setNext prev next

/-- A node leaves its list and is linked to itself. -/
def del (x : α) : Memory α := ((m.unlink (m.prev x) (m.next x)).setNext x x).setPrev x x

variable {x y p n : α}

theorem insert_next : (m.insert x p n).next y =
    if y = p then x else if y = x then n else m.next y := by
  simp [insert, setNext, setPrev, Function.update_apply]

theorem insert_prev : (m.insert x p n).prev y =
    if y = x then p else if y = n then x else m.prev y := by
  simp [insert, setNext, setPrev, Function.update_apply]

theorem del_next : (m.del x).next y =
    if y = x then x else if y = m.prev x then m.next x else m.next y := by
  simp [del, unlink, setNext, setPrev, Function.update_apply]

theorem del_prev : (m.del x).prev y =
    if y = x then x else if y = m.next x then m.prev x else m.prev y := by
  simp [del, unlink, setNext, setPrev, Function.update_apply]

end Memory

variable {α : Type*} {m m' : Memory α} {a b c h x y : α} {l l₁ l₂ : List α}

/-! ### Segments -/

/-- The links lead from `a` through `l` to `b` and back. -/
def Seg (m : Memory α) : α → List α → α → Prop
  | a, [], b => m.next a = b ∧ m.prev b = a
  | a, x :: l, b => m.next a = x ∧ m.prev x = a ∧ Seg m x l b

theorem seg_cons : Seg m a (x :: l) b ↔ m.next a = x ∧ m.prev x = a ∧ Seg m x l b := Iff.rfl

theorem seg_append : Seg m a (l₁ ++ x :: l₂) b ↔ Seg m a l₁ x ∧ Seg m x l₂ b := by
  induction l₁ generalizing a with
  | nil => exact and_assoc.symm
  | cons y l₁ ih =>
    rw [List.cons_append, seg_cons, seg_cons, ih, and_assoc, and_assoc]

/-- A segment reads `next` of all but its last node, `prev` of all but its first. -/
theorem Seg.congr (hs : Seg m a l b) (hnext : ∀ y ∈ a :: l, m'.next y = m.next y)
    (hprev : ∀ y ∈ b :: l, m'.prev y = m.prev y) : Seg m' a l b := by
  induction l generalizing a with
  | nil =>
    obtain ⟨h1, h2⟩ := hs
    exact ⟨(hnext a List.mem_cons_self).trans h1, (hprev b List.mem_cons_self).trans h2⟩
  | cons x l ih =>
    obtain ⟨h1, h2, h3⟩ := hs
    refine ⟨(hnext a List.mem_cons_self).trans h1, (hprev x (by simp)).trans h2, ih h3 ?_ ?_⟩
    · exact fun y hy => hnext y (List.mem_cons_of_mem a hy)
    · intro y hy
      rcases List.mem_cons.mp hy with rfl | hy
      · exact hprev y List.mem_cons_self
      · exact hprev y (List.mem_cons_of_mem b (List.mem_cons_of_mem x hy))

/-- The last node but the end. -/
theorem Seg.prev_mem (hs : Seg m a l b) : m.prev b ∈ a :: l := by
  induction l generalizing a with
  | nil => exact hs.2 ▸ List.mem_cons_self
  | cons x l ih => exact List.mem_cons_of_mem a (ih hs.2.2)

/-- The first node but the start. -/
theorem Seg.next_mem (hs : Seg m a l b) : m.next a ∈ b :: l := by
  cases l with
  | nil => exact hs.1 ▸ List.mem_cons_self
  | cons x l => exact hs.1 ▸ List.mem_cons_of_mem b List.mem_cons_self

/-- The last link of a segment is led to another end. -/
theorem Seg.retarget (hs : Seg m a l b) (hnodup : (a :: l).Nodup)
    (hlast : m'.next (m.prev b) = c) (hend : m'.prev c = m.prev b)
    (hnext : ∀ y ∈ a :: l, y ≠ m.prev b → m'.next y = m.next y)
    (hprev : ∀ y ∈ l, m'.prev y = m.prev y) : Seg m' a l c := by
  induction l generalizing a with
  | nil =>
    rw [hs.2] at hlast hend
    exact ⟨hlast, hend⟩
  | cons x l ih =>
    obtain ⟨h1, h2, h3⟩ := hs
    obtain ⟨hout, hnodup⟩ := List.nodup_cons.mp hnodup
    have hne : a ≠ m.prev b := fun heq => hout (heq ▸ h3.prev_mem)
    refine ⟨(hnext a List.mem_cons_self hne).trans h1,
      (hprev x List.mem_cons_self).trans h2, ih h3 hnodup ?_ ?_⟩
    · exact fun y hy => hnext y (List.mem_cons_of_mem a hy)
    · exact fun y hy => hprev y (List.mem_cons_of_mem x hy)

/-- Along a segment the links are inverse. -/
theorem Seg.prev_next (hs : Seg m a l b) (hy : y ∈ a :: l) : m.prev (m.next y) = y := by
  induction l generalizing a with
  | nil =>
    obtain rfl := List.mem_singleton.mp hy
    rw [hs.1, hs.2]
  | cons x l ih =>
    obtain ⟨h1, h2, h3⟩ := hs
    rcases List.mem_cons.mp hy with rfl | hy
    · rw [h1, h2]
    · exact ih h3 hy

theorem Seg.next_prev (hs : Seg m a l b) (hy : y ∈ b :: l) : m.next (m.prev y) = y := by
  induction l generalizing a with
  | nil =>
    obtain rfl := List.mem_singleton.mp hy
    rw [hs.2, hs.1]
  | cons x l ih =>
    obtain ⟨h1, h2, h3⟩ := hs
    by_cases hyx : y = x
    · rw [hyx, h2, h1]
    · apply ih h3
      rcases List.mem_cons.mp hy with rfl | hy
      · exact List.mem_cons_self
      · exact List.mem_cons_of_mem b ((List.mem_cons.mp hy).resolve_left hyx)

/-- The way from a node to an end that is not on it. -/
theorem Seg.unique (h₁ : Seg m a l₁ b) (h₂ : Seg m a l₂ b) (hb₁ : b ∉ l₁) (hb₂ : b ∉ l₂) :
    l₁ = l₂ := by
  induction l₁ generalizing a l₂ with
  | nil =>
    cases l₂ with
    | nil => rfl
    | cons y l₂ => exact absurd (h₁.1.symm.trans h₂.1) (by rintro rfl; simp at hb₂)
  | cons x l₁ ih =>
    cases l₂ with
    | nil => exact absurd (h₂.1.symm.trans h₁.1) (by rintro rfl; simp at hb₁)
    | cons y l₂ =>
      obtain rfl : x = y := h₁.1.symm.trans h₂.1
      rw [ih h₁.2.2 h₂.2.2 (fun hb => hb₁ (List.mem_cons_of_mem x hb))
        fun hb => hb₂ (List.mem_cons_of_mem x hb)]

/-! ### Lists -/

/-- The head `h` has the elements `l`: the links lead round through them. -/
structure IsList (m : Memory α) (h : α) (l : List α) : Prop where
  seg : Seg m h l h
  nodup : (h :: l).Nodup

namespace IsList

theorem nil_of_self (hnext : m.next h = h) (hprev : m.prev h = h) : IsList m h [] :=
  ⟨⟨hnext, hprev⟩, List.nodup_singleton h⟩

theorem head_not_mem (hl : IsList m h l) : h ∉ l := (List.nodup_cons.mp hl.nodup).1

/-- The links determine the elements. -/
theorem unique (h₁ : IsList m h l₁) (h₂ : IsList m h l₂) : l₁ = l₂ :=
  h₁.seg.unique h₂.seg h₁.head_not_mem h₂.head_not_mem

/-- Along a list the links are inverse. -/
theorem inverse (hl : IsList m h l) (hy : y ∈ h :: l) :
    m.prev (m.next y) = y ∧ m.next (m.prev y) = y :=
  ⟨hl.seg.prev_next hy, hl.seg.next_prev hy⟩

theorem congr (hl : IsList m h l) (hnext : ∀ y ∈ h :: l, m'.next y = m.next y)
    (hprev : ∀ y ∈ h :: l, m'.prev y = m.prev y) : IsList m' h l :=
  ⟨hl.seg.congr hnext hprev, hl.nodup⟩

/-- The first element. -/
theorem next_head (hl : IsList m h (x :: l)) : m.next h = x := hl.seg.1

theorem next_mem (hl : IsList m h l) : m.next h ∈ h :: l := hl.seg.next_mem

theorem prev_mem (hl : IsList m h l) : m.prev h ∈ h :: l := hl.seg.prev_mem

/-- The neighbours of an element. -/
theorem neighbours (hl : IsList m h l) (hx : x ∈ l) :
    m.next x ∈ h :: l ∧ m.prev x ∈ h :: l := by
  obtain ⟨l₁, l₂, rfl⟩ := List.append_of_mem hx
  obtain ⟨h1, h2⟩ := seg_append.mp hl.seg
  have hn := h2.next_mem
  have hp := h1.prev_mem
  simp only [List.mem_cons, List.mem_append] at hn hp ⊢
  exact ⟨hn.imp_right fun hn => Or.inr (Or.inr hn), hp.imp_right Or.inl⟩

variable [DecidableEq α]

theorem isEmpty_iff (hl : IsList m h l) : m.isEmpty h = true ↔ l = [] := by
  rw [Memory.isEmpty, beq_iff_eq]
  cases l with
  | nil => exact ⟨fun _ => rfl, fun _ => hl.seg.1⟩
  | cons x l =>
    rw [hl.next_head]
    exact ⟨fun heq => absurd List.mem_cons_self (heq ▸ hl.head_not_mem), fun heq => by simp at heq⟩

/-- **A node that is not on the list is put first.**  Four links change: those of the node, that
of the head and that of the element that was first. -/
theorem add (hl : IsList m h l) (hx : x ∉ h :: l) : IsList (m.add x h) h (x :: l) := by
  obtain ⟨hxh, hxl⟩ := not_or.mp (mt List.mem_cons.mpr hx)
  have hh := hl.head_not_mem
  have hnext : ∀ y, y ≠ x → y ≠ h → (m.add x h).next y = m.next y := by
    intro y h1 h2
    rw [Memory.add, Memory.insert_next, if_neg h2, if_neg h1]
  have hprev : ∀ y, y ≠ x → y ≠ m.next h → (m.add x h).prev y = m.prev y := by
    intro y h1 h2
    rw [Memory.add, Memory.insert_prev, if_neg h1, if_neg h2]
  have hfirst : (m.add x h).next h = x := by rw [Memory.add, Memory.insert_next, if_pos rfl]
  have hback : (m.add x h).prev x = h := by rw [Memory.add, Memory.insert_prev, if_pos rfl]
  have hsecond : (m.add x h).next x = m.next h := by
    rw [Memory.add, Memory.insert_next, if_neg hxh, if_pos rfl]
  have hthird : (m.add x h).prev (m.next h) = x := by
    have hne : m.next h ≠ x := fun heq => hx (heq ▸ hl.next_mem)
    rw [Memory.add, Memory.insert_prev, if_neg hne, if_pos rfl]
  refine ⟨seg_cons.mpr ⟨hfirst, hback, ?_⟩, ?_⟩
  · -- the node that was first follows the new one
    cases l with
    | nil =>
      -- that is the head itself
      rw [hl.seg.1] at hsecond hthird
      exact ⟨hsecond, hthird⟩
    | cons y l =>
      obtain ⟨h1, -, h3⟩ := hl.seg
      rw [h1] at hsecond hthird
      have hy : y ∉ l := (List.nodup_cons.mp (List.nodup_cons.mp hl.nodup).2).1
      refine ⟨hsecond, hthird, h3.congr (fun z hz => hnext z ?_ ?_) fun z hz => hprev z ?_ ?_⟩
      · rintro rfl
        exact hxl hz
      · rintro rfl
        exact hh hz
      · rintro rfl
        rcases List.mem_cons.mp hz with rfl | hz
        · exact hxh rfl
        · exact hxl (List.mem_cons_of_mem y hz)
      · rw [h1]
        rintro rfl
        rcases List.mem_cons.mp hz with rfl | hz
        · exact hh List.mem_cons_self
        · exact hy hz
  · refine List.nodup_cons.mpr ⟨?_, List.nodup_cons.mpr ⟨hxl, (List.nodup_cons.mp hl.nodup).2⟩⟩
    rw [List.mem_cons]
    rintro (heq | hmem)
    · exact hxh heq.symm
    · exact hh hmem

/-- **A node that is not on the list is put last.** -/
theorem addTail (hl : IsList m h l) (hx : x ∉ h :: l) :
    IsList (m.addTail x h) h (l ++ [x]) := by
  obtain ⟨hxh, hxl⟩ := not_or.mp (mt List.mem_cons.mpr hx)
  have hh := hl.head_not_mem
  have hlast : m.prev h ≠ x := fun heq => hx (heq ▸ hl.prev_mem)
  have hnext : ∀ y, y ≠ x → y ≠ m.prev h → (m.addTail x h).next y = m.next y := by
    intro y h1 h2
    rw [Memory.addTail, Memory.insert_next, if_neg h2, if_neg h1]
  have hprev : ∀ y, y ≠ x → y ≠ h → (m.addTail x h).prev y = m.prev y := by
    intro y h1 h2
    rw [Memory.addTail, Memory.insert_prev, if_neg h1, if_neg h2]
  refine ⟨seg_append.mpr ⟨hl.seg.retarget hl.nodup ?_ ?_ ?_ ?_, ?_, ?_⟩, ?_⟩
  · rw [Memory.addTail, Memory.insert_next, if_pos rfl]
  · rw [Memory.addTail, Memory.insert_prev, if_pos rfl]
  · intro y hy hne
    exact hnext y (fun heq => hx (heq ▸ hy)) hne
  · intro y hy
    exact hprev y (fun heq => hxl (heq ▸ hy)) fun heq => hh (heq ▸ hy)
  · rw [Memory.addTail, Memory.insert_next, if_neg hlast.symm, if_pos rfl]
  · rw [Memory.addTail, Memory.insert_prev, if_neg (Ne.symm hxh), if_pos rfl]
  · rw [← List.cons_append, List.nodup_append']
    exact ⟨hl.nodup, List.nodup_singleton x, fun y hy hyx => hx (List.mem_singleton.mp hyx ▸ hy)⟩

/-- **An element leaves, the others stay in order.** -/
theorem del (hl : IsList m h (l₁ ++ x :: l₂)) : IsList (m.del x) h (l₁ ++ l₂) := by
  obtain ⟨hs₁, hs₂⟩ := seg_append.mp hl.seg
  have hnodup := hl.nodup
  rw [← List.cons_append, List.nodup_append', List.nodup_cons (a := x)] at hnodup
  obtain ⟨hn₁, ⟨hx₂, hn₂⟩, hdisj⟩ := hnodup
  have hx₁ : x ∉ h :: l₁ := fun hmem => hdisj hmem List.mem_cons_self
  have h₂ : ∀ y ∈ l₂, y ∉ h :: l₁ := fun y hy hmem => hdisj hmem (List.mem_cons_of_mem x hy)
  have hpx : m.prev x ≠ x := fun heq => hx₁ (heq ▸ hs₁.prev_mem)
  have hnx : m.next x ≠ x := by
    intro heq
    rcases List.mem_cons.mp (heq ▸ hs₂.next_mem) with rfl | hmem
    · exact hx₁ List.mem_cons_self
    · exact hx₂ hmem
  -- the way to `x` is led on to the node behind it
  have hfront : Seg (m.del x) h l₁ (m.next x) := by
    refine hs₁.retarget hn₁ ?_ ?_ (fun y hy hne => ?_) fun y hy => ?_
    · rw [Memory.del_next, if_neg hpx, if_pos rfl]
    · rw [Memory.del_prev, if_neg hnx, if_pos rfl]
    · have hyx : y ≠ x := fun heq => hx₁ (heq ▸ hy)
      rw [Memory.del_next, if_neg hyx, if_neg hne]
    · have hy' := List.mem_cons_of_mem h hy
      have hyx : y ≠ x := fun heq => hx₁ (heq ▸ hy')
      rw [Memory.del_prev, if_neg hyx, if_neg]
      intro heq
      rcases List.mem_cons.mp (heq ▸ hs₂.next_mem) with rfl | hmem
      · exact (List.nodup_cons.mp hn₁).1 hy
      · exact h₂ y hmem hy'
  refine ⟨?_, ?_⟩
  · cases l₂ with
    | nil =>
      rw [hs₂.1] at hfront
      rwa [List.append_nil]
    | cons z l₂ =>
      obtain ⟨h1, -, h3⟩ := hs₂
      rw [h1] at hfront
      refine seg_append.mpr ⟨hfront, h3.congr (fun y hy => ?_) fun y hy => ?_⟩
      · have hyx : y ≠ x := fun heq => hx₂ (heq ▸ hy)
        have hyp : y ≠ m.prev x := fun heq => h₂ y hy (heq ▸ hs₁.prev_mem)
        rw [Memory.del_next, if_neg hyx, if_neg hyp]
      · rw [Memory.del_prev, if_neg, if_neg]
        · rw [h1]
          rintro rfl
          rcases List.mem_cons.mp hy with rfl | hy
          · exact h₂ _ List.mem_cons_self List.mem_cons_self
          · exact (List.nodup_cons.mp hn₂).1 hy
        · rintro rfl
          rcases List.mem_cons.mp hy with rfl | hy
          · exact hx₁ List.mem_cons_self
          · exact hx₂ (List.mem_cons_of_mem z hy)
  · rw [← List.cons_append, List.nodup_append']
    exact ⟨hn₁, hn₂, fun y hy hy₂ => h₂ y hy₂ hy⟩

end IsList

/-! ### Several lists in one memory -/

section Family

variable {κ : Type*} {head : κ → α} {lists : κ → List α} {j k : κ}

/-- The lists of several heads have no node in common, and every node on none of them is
linked to itself. -/
structure Family (m : Memory α) (head : κ → α) (lists : κ → List α) : Prop where
  isList : ∀ k, IsList m (head k) (lists k)
  apart : ∀ j k, j ≠ k → ∀ x ∈ head j :: lists j, x ∉ head k :: lists k
  alone : ∀ x, (∀ k, x ∉ head k :: lists k) → m.next x = x ∧ m.prev x = x

namespace Family

/-- Heads that are linked to themselves, like all other nodes. -/
theorem of_self (hself : ∀ x, m.next x = x ∧ m.prev x = x) (hinj : Function.Injective head) :
    Family m head fun _ => [] where
  isList := fun k => IsList.nil_of_self (hself _).1 (hself _).2
  apart := by
    intro j k hjk x hx hx'
    rw [List.mem_singleton] at hx hx'
    exact hjk (hinj (hx.symm.trans hx'))
  alone := fun x _ => hself x

/-- **Throughout the memory the links are inverse.** -/
theorem inverse (hf : Family m head lists) (x : α) :
    m.prev (m.next x) = x ∧ m.next (m.prev x) = x := by
  by_cases hx : ∃ k, x ∈ head k :: lists k
  · obtain ⟨k, hx⟩ := hx
    exact (hf.isList k).inverse hx
  · obtain ⟨h1, h2⟩ := hf.alone x fun k hk => hx ⟨k, hk⟩
    rw [h1, h2]
    exact ⟨rfl, h1⟩

variable [DecidableEq κ]

/-- One list changes, in nodes of its own and one that no other list holds. -/
private theorem change (hf : Family m head lists) {l' : List α}
    (hl : IsList m' (head k) l') (hx : ∀ j, j ≠ k → x ∉ head j :: lists j)
    (hsub : ∀ y ∈ l', y = x ∨ y ∈ lists k)
    (hframe : ∀ y, y ≠ x → y ∉ head k :: lists k → m'.next y = m.next y ∧ m'.prev y = m.prev y)
    (hleft : ∀ y, y = x ∨ y ∈ lists k → y ∉ l' → m'.next y = y ∧ m'.prev y = y) :
    Family m' head (Function.update lists k l') where
  isList := by
    intro j
    by_cases hj : j = k
    · subst hj
      rwa [Function.update_self]
    · rw [Function.update_of_ne hj]
      have hkeep : ∀ y ∈ head j :: lists j, m'.next y = m.next y ∧ m'.prev y = m.prev y :=
        fun y hy => hframe y (fun heq => hx j hj (heq ▸ hy)) (hf.apart j k hj y hy)
      exact (hf.isList j).congr (fun y hy => (hkeep y hy).1) fun y hy => (hkeep y hy).2
  apart := by
    -- what the changed list holds, no other list does
    have hout : ∀ j, j ≠ k → ∀ y ∈ head k :: l', y ∉ head j :: lists j := by
      intro j hj y hy
      have hhead : head k ∈ head k :: lists k := List.mem_cons_self
      rcases List.mem_cons.mp hy with rfl | hy
      · exact hf.apart k j (Ne.symm hj) _ hhead
      · rcases hsub y hy with rfl | hy
        · exact hx j hj
        · exact hf.apart k j (Ne.symm hj) y (List.mem_cons_of_mem _ hy)
    intro i j hij y hy
    by_cases hi : i = k
    · subst hi
      rw [Function.update_self] at hy
      rw [Function.update_of_ne (Ne.symm hij)]
      exact hout j (Ne.symm hij) y hy
    · rw [Function.update_of_ne hi] at hy
      by_cases hj : j = k
      · subst hj
        rw [Function.update_self]
        exact fun hy' => hout i hi y hy' hy
      · rw [Function.update_of_ne hj]
        exact hf.apart i j hij y hy
  alone := by
    intro y hy
    have hyk := hy k
    rw [Function.update_self, List.mem_cons, not_or] at hyk
    by_cases hmem : y = x ∨ y ∈ lists k
    · exact hleft y hmem hyk.2
    · rw [not_or] at hmem
      have hout : y ∉ head k :: lists k := by
        rw [List.mem_cons, not_or]
        exact ⟨hyk.1, hmem.2⟩
      obtain ⟨h1, h2⟩ := hframe y hmem.1 hout
      rw [h1, h2]
      apply hf.alone y
      intro j
      by_cases hj : j = k
      · exact hj ▸ hout
      · have := hy j
        rwa [Function.update_of_ne hj] at this

variable [DecidableEq α]

omit [DecidableEq κ] in
/-- Putting a node between two of a list's nodes leaves the rest of the memory alone. -/
private theorem insert_frame {p n : α} (hp : p ∈ head k :: lists k) (hn : n ∈ head k :: lists k)
    (hyx : y ≠ x) (hy : y ∉ head k :: lists k) :
    (m.insert x p n).next y = m.next y ∧ (m.insert x p n).prev y = m.prev y := by
  have hyp : y ≠ p := fun heq => hy (heq ▸ hp)
  have hyn : y ≠ n := fun heq => hy (heq ▸ hn)
  rw [Memory.insert_next, Memory.insert_prev, if_neg hyp, if_neg hyx, if_neg hyx, if_neg hyn]
  exact ⟨rfl, rfl⟩

/-- **Adding a node that no list holds puts it first on one list.** -/
theorem add (hf : Family m head lists) (hx : ∀ j, x ∉ head j :: lists j) :
    Family (m.add x (head k)) head (Function.update lists k (x :: lists k)) := by
  refine hf.change ((hf.isList k).add (hx k)) (fun j _ => hx j) (fun y hy => ?_)
    (fun y hyx hy => ?_) fun y hy hout => ?_
  · exact List.mem_cons.mp hy
  · exact insert_frame List.mem_cons_self (hf.isList k).next_mem hyx hy
  · exact absurd (List.mem_cons.mpr hy) hout

/-- **Adding it at the tail puts it last.** -/
theorem addTail (hf : Family m head lists) (hx : ∀ j, x ∉ head j :: lists j) :
    Family (m.addTail x (head k)) head (Function.update lists k (lists k ++ [x])) := by
  refine hf.change ((hf.isList k).addTail (hx k)) (fun j _ => hx j) (fun y hy => ?_)
    (fun y hyx hy => ?_) fun y hy hout => ?_
  · rw [List.mem_append, List.mem_singleton] at hy
    exact hy.symm
  · exact insert_frame (hf.isList k).prev_mem List.mem_cons_self hyx hy
  · rw [List.mem_append, List.mem_singleton] at hout
    exact absurd hy.symm hout

/-- **Deleting an element takes it off its list and links it to itself.** -/
theorem del (hf : Family m head lists) (hx : x ∈ lists k) :
    Family (m.del x) head (Function.update lists k ((lists k).erase x)) := by
  have hself : (m.del x).next x = x ∧ (m.del x).prev x = x := by
    rw [Memory.del_next, Memory.del_prev, if_pos rfl, if_pos rfl]
    exact ⟨rfl, rfl⟩
  obtain ⟨hn, hp⟩ := (hf.isList k).neighbours hx
  have hnodup := (List.nodup_cons.mp (hf.isList k).nodup).2
  obtain ⟨l₁, l₂, -, hsplit, herase⟩ := List.exists_erase_eq hx
  have hlist : IsList (m.del x) (head k) ((lists k).erase x) := by
    rw [herase]
    exact IsList.del (hsplit ▸ hf.isList k)
  refine hf.change (x := x) hlist (fun j hj hmem => ?_) (fun y hy => ?_) (fun y hyx hy => ?_)
    fun y hy hout => ?_
  · exact hf.apart j k hj x hmem (List.mem_cons_of_mem _ hx)
  · exact Or.inr (List.mem_of_mem_erase hy)
  · have hyn : y ≠ m.next x := fun heq => hy (heq ▸ hn)
    have hyp : y ≠ m.prev x := fun heq => hy (heq ▸ hp)
    rw [Memory.del_next, Memory.del_prev, if_neg hyx, if_neg hyp, if_neg hyx, if_neg hyn]
    exact ⟨rfl, rfl⟩
  · rcases hy with rfl | hy
    · exact hself
    · by_cases hyx : y = x
      · exact hyx ▸ hself
      · exact absurd ((hnodup.mem_erase_iff).mpr ⟨hyx, hy⟩) hout

end Family

end Family

end Circular
