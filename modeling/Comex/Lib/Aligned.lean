import Mathlib.Data.Set.Insert
import Mathlib.Data.Nat.Bitwise
import Mathlib.Tactic.Ring
import Mathlib.Tactic.Common

/-!
# Aligned power-of-two blocks

A block of order `k` is a run of `2 ^ k` numbers starting at a multiple of
`2 ^ k`.  It is stored as its order and its index among the blocks of that
order, so a misaligned block cannot be written down; two blocks are then either
nested or disjoint.

A set of blocks of order at most `top` is *coalesced* when its blocks are
disjoint and no two halves of one larger block are both in it.  Such a set is
the only one with its cover: the blocks are exactly the maximal aligned runs
inside the covered numbers.

## Main results

* `Coalesced.exists_above` — an aligned run inside the cover lies in one block.
* `Coalesced.mem_iff` — the blocks are the maximal aligned runs of the cover.
* `Coalesced.eq_of_cover` — **two coalesced sets with one cover are equal.**
* `Coalesced.erase`, `Coalesced.insert` — the two ways such a set changes.
-/

namespace Aligned

/-- An aligned block: `idx` counts the blocks of its order. -/
@[ext] structure Block where
  order : ℕ
  idx : ℕ
  deriving DecidableEq, Repr

namespace Block

/-- The first number of a block. -/
def head (b : Block) : ℕ := b.idx * 2 ^ b.order

/-- The block of order `k` around `p`. -/
def around (k p : ℕ) : Block := ⟨k, p / 2 ^ k⟩

/-- The block twice the size. -/
def parent (b : Block) : Block := ⟨b.order + 1, b.idx / 2⟩

/-- The other half of the parent. -/
def buddy (b : Block) : Block := ⟨b.order, if b.idx % 2 = 0 then b.idx + 1 else b.idx - 1⟩

instance : Membership ℕ Block := ⟨fun b p => p / 2 ^ b.order = b.idx⟩

theorem mem_def {b : Block} {p : ℕ} : p ∈ b ↔ p / 2 ^ b.order = b.idx := Iff.rfl

instance (b : Block) (p : ℕ) : Decidable (p ∈ b) :=
  inferInstanceAs (Decidable (p / 2 ^ b.order = b.idx))

/-- A block is the run of `2 ^ order` numbers from its head. -/
theorem mem_iff_range {b : Block} {p : ℕ} :
    p ∈ b ↔ b.head ≤ p ∧ p < b.head + 2 ^ b.order := by
  rw [mem_def, head, Nat.div_eq_iff (Nat.two_pow_pos _)]
  have := Nat.two_pow_pos b.order
  omega

theorem head_mem (b : Block) : b.head ∈ b :=
  mem_iff_range.mpr ⟨le_rfl, Nat.lt_add_of_pos_right (Nat.two_pow_pos _)⟩

theorem mem_around (k p : ℕ) : p ∈ around k p := rfl

/-- An aligned head determines its block. -/
theorem head_around {k h : ℕ} (hd : 2 ^ k ∣ h) : (around k h).head = h := Nat.div_mul_cancel hd

theorem dvd_head (b : Block) : 2 ^ b.order ∣ b.head := Dvd.intro_left _ rfl

theorem around_head (b : Block) : around b.order b.head = b := by
  ext
  · rfl
  · exact head_mem b

/-- The index of a block that shares a number with a smaller one. -/
theorem idx_of_mem {b c : Block} {p : ℕ} (hb : p ∈ b) (hc : p ∈ c) (h : b.order ≤ c.order) :
    c.idx = b.idx / 2 ^ (c.order - b.order) := by
  rw [← mem_def.mp hb, ← mem_def.mp hc, Nat.div_div_eq_div_mul, ← Nat.pow_add,
    Nat.add_sub_cancel' h]

/-- Two blocks that meet are nested. -/
theorem mem_of_le {b c : Block} {p q : ℕ} (hb : p ∈ b) (hc : p ∈ c) (h : b.order ≤ c.order)
    (hq : q ∈ b) : q ∈ c := by
  have hidx := idx_of_mem hb hc h
  rw [mem_def] at hq ⊢
  rw [hidx, ← hq, Nat.div_div_eq_div_mul, ← Nat.pow_add, Nat.add_sub_cancel' h]

/-- Blocks of one order that meet are equal. -/
theorem eq_of_mem {b c : Block} {p : ℕ} (hb : p ∈ b) (hc : p ∈ c) (h : b.order = c.order) :
    b = c := by
  ext
  · exact h
  · rw [← mem_def.mp hb, ← mem_def.mp hc, h]

@[simp] theorem parent_order (b : Block) : b.parent.order = b.order + 1 := rfl

@[simp] theorem buddy_order (b : Block) : b.buddy.order = b.order := rfl

theorem mem_parent_of_mem {b : Block} {p : ℕ} (h : p ∈ b) : p ∈ b.parent := by
  rw [mem_def] at h ⊢
  rw [parent, Nat.pow_succ, ← Nat.div_div_eq_div_mul, h]

/-- A parent is its two halves. -/
theorem mem_parent_iff {b : Block} {p : ℕ} : p ∈ b.parent ↔ p ∈ b ∨ p ∈ b.buddy := by
  simp only [mem_def, parent, buddy, Nat.pow_succ, ← Nat.div_div_eq_div_mul]
  generalize p / 2 ^ b.order = x
  split <;> omega

theorem buddy_ne (b : Block) : b.buddy ≠ b := by
  intro h
  have := congrArg idx h
  simp only [buddy] at this
  split at this <;> omega

@[simp] theorem buddy_buddy (b : Block) : b.buddy.buddy = b := by
  obtain ⟨k, q⟩ := b
  simp only [buddy, Block.mk.injEq, true_and]
  split <;> split <;> omega

theorem disjoint_buddy {b : Block} {p : ℕ} (h : p ∈ b) : p ∉ b.buddy := fun h' =>
  buddy_ne b (eq_of_mem h' h rfl)

/-- The lower half of a block of positive order. -/
def low (b : Block) : Block := ⟨b.order - 1, 2 * b.idx⟩

/-- The upper half of a block of positive order. -/
def high (b : Block) : Block := ⟨b.order - 1, 2 * b.idx + 1⟩

@[simp] theorem low_order (b : Block) : b.low.order = b.order - 1 := rfl

@[simp] theorem high_order (b : Block) : b.high.order = b.order - 1 := rfl

theorem buddy_high (b : Block) : b.high.buddy = b.low := by
  have hodd : b.high.idx % 2 ≠ 0 := by
    show (2 * b.idx + 1) % 2 ≠ 0
    omega
  rw [buddy, if_neg hodd]
  rfl

theorem parent_low {b : Block} (h : 0 < b.order) : b.low.parent = b := by
  ext <;> simp only [low, parent] <;> omega

theorem head_low {b : Block} (h : 0 < b.order) : b.low.head = b.head := by
  obtain ⟨k, hk⟩ := Nat.exists_eq_succ_of_ne_zero h.ne'
  simp only [head, low, hk, Nat.succ_eq_add_one, Nat.add_sub_cancel, Nat.pow_succ]
  ring

theorem head_high {b : Block} (h : 0 < b.order) :
    b.high.head = b.head + 2 ^ (b.order - 1) := by
  obtain ⟨k, hk⟩ := Nat.exists_eq_succ_of_ne_zero h.ne'
  simp only [head, high, hk, Nat.succ_eq_add_one, Nat.add_sub_cancel, Nat.pow_succ]
  ring

theorem mem_iff_low_or_high {b : Block} (h : 0 < b.order) {p : ℕ} :
    p ∈ b ↔ p ∈ b.low ∨ p ∈ b.high := by
  conv_lhs => rw [← parent_low h]
  rw [mem_parent_iff, ← buddy_high, buddy_buddy]

end Block

/-! ### Buddy and parent addresses

An index kept modulo `2 ^ T` finds the buddy's head by flipping bit `order`, and
the parent's head by clearing it, as long as the order is below `T`. -/

theorem xor_one (m : ℕ) : m ^^^ 1 = if m % 2 = 0 then m + 1 else m - 1 := by
  have h1 : (m ^^^ 1) / 2 = m / 2 := by simp [Nat.xor_div_two]
  have h2 : (m ^^^ 1) % 2 = (m + 1) % 2 := by simp [Nat.xor_mod_two_eq]
  split <;> omega

theorem xor_bit (m k : ℕ) :
    m * 2 ^ k ^^^ 1 <<< k = (if m % 2 = 0 then m + 1 else m - 1) * 2 ^ k := by
  rw [← Nat.shiftLeft_eq, ← Nat.shiftLeft_xor_distrib, Nat.shiftLeft_eq, xor_one]

/-- The buddy's head differs from a block's in bit `order`. -/
theorem Block.head_buddy (b : Block) : b.buddy.head = b.head ^^^ 1 <<< b.order := by
  rw [head, head, xor_bit]
  rfl

theorem clear_bit {T m k : ℕ} (h : m * 2 ^ k < 2 ^ T) :
    m * 2 ^ k &&& ((1 <<< T - 1) ^^^ 1 <<< k) = m / 2 * 2 ^ (k + 1) := by
  have hbit : (m * 2 ^ k).testBit k = decide (m % 2 = 1) := by
    rw [Nat.testBit_mul_two_pow, Nat.sub_self, Nat.testBit_zero]
    simp
  rw [Nat.and_xor_distrib_left, Nat.one_shiftLeft, Nat.and_two_pow_sub_one_eq_mod,
    Nat.mod_eq_of_lt h, Nat.one_shiftLeft, Nat.and_two_pow, hbit]
  rcases Nat.mod_two_eq_zero_or_one m with hm | hm
  · have hdiv : m = m / 2 * 2 := by omega
    have hrhs : m * 2 ^ k = m / 2 * 2 ^ (k + 1) := by
      rw [Nat.pow_succ]
      nth_rewrite 1 [hdiv]
      ring
    simp [hm, hrhs]
  · have hdiv : m - 1 = m / 2 * 2 := by omega
    have hflip := xor_bit m k
    rw [Nat.one_shiftLeft, if_neg (by omega)] at hflip
    rw [hm]
    simp only [decide_true, Bool.toNat_true, Nat.one_mul]
    rw [hflip, hdiv, Nat.pow_succ]
    ring

namespace Block

/-- The head of a block modulo `2 ^ T`, in units of the block. -/
theorem head_mod {T : ℕ} (b : Block) (h : b.order < T) :
    b.head % 2 ^ T = b.idx % 2 ^ (T - b.order) * 2 ^ b.order := by
  have hT : 2 ^ T = 2 ^ (T - b.order) * 2 ^ b.order := by
    rw [← Nat.pow_add, Nat.sub_add_cancel h.le]
  rw [head, hT, Nat.mul_mod_mul_right]

theorem idx_mod_two {T : ℕ} (b : Block) (h : b.order < T) :
    b.idx % 2 ^ (T - b.order) % 2 = b.idx % 2 :=
  Nat.mod_mod_of_dvd _ (dvd_pow_self 2 (by omega))

/-- Flipping the order's bit of the masked head leads to the buddy. -/
theorem head_buddy_eq {T : ℕ} (b : Block) (h : b.order < T) :
    b.head + (b.head % 2 ^ T ^^^ 1 <<< b.order) - b.head % 2 ^ T = b.buddy.head := by
  have hpar := b.idx_mod_two h
  have hle : b.idx % 2 ^ (T - b.order) ≤ b.idx := Nat.mod_le _ _
  rw [b.head_mod h, xor_bit, hpar]
  simp only [head, buddy]
  generalize b.idx % 2 ^ (T - b.order) = m at *
  split
  · rw [Nat.add_mul m, Nat.add_mul b.idx]
    omega
  · rw [Nat.sub_mul m, Nat.sub_mul b.idx]
    have : 1 * 2 ^ b.order ≤ m * 2 ^ b.order := Nat.mul_le_mul_right _ (by omega)
    have : 1 * 2 ^ b.order ≤ b.idx * 2 ^ b.order := Nat.mul_le_mul_right _ (by omega)
    omega

theorem masked_clear_eq {T : ℕ} (b : Block) (h : b.order < T) :
    b.head % 2 ^ T &&& ((1 <<< T - 1) ^^^ 1 <<< b.order)
      = b.idx % 2 ^ (T - b.order) / 2 * 2 ^ (b.order + 1) := by
  rw [b.head_mod h]
  apply clear_bit
  rw [← b.head_mod h]
  exact Nat.mod_lt _ (Nat.two_pow_pos _)

/-- Clearing the order's bit of the masked head leads to the parent. -/
theorem head_parent_eq {T : ℕ} (b : Block) (h : b.order < T) :
    b.head + (b.head % 2 ^ T &&& ((1 <<< T - 1) ^^^ 1 <<< b.order)) - b.head % 2 ^ T
      = b.parent.head := by
  have hpar := b.idx_mod_two h
  have hle : b.idx % 2 ^ (T - b.order) ≤ b.idx := Nat.mod_le _ _
  rw [b.masked_clear_eq h, b.head_mod h, Nat.pow_succ]
  simp only [head, parent, Nat.pow_succ]
  generalize b.idx % 2 ^ (T - b.order) = m at *
  obtain ⟨x, hx⟩ : ∃ x, b.idx = m + 2 * x := ⟨(b.idx - m) / 2, by omega⟩
  have hdiv : b.idx / 2 = m / 2 + x := by omega
  rw [hdiv, hx]
  have hl : (m + 2 * x) * 2 ^ b.order + m / 2 * (2 ^ b.order * 2)
      = (m / 2 + x) * (2 ^ b.order * 2) + m * 2 ^ b.order := by ring
  omega

/-- The cleared index is the parent's masked head. -/
theorem clear_eq_mod {T : ℕ} (b : Block) (h : b.order + 1 < T) :
    b.head % 2 ^ T &&& ((1 <<< T - 1) ^^^ 1 <<< b.order) = b.parent.head % 2 ^ T := by
  have hT : T - b.order = T - b.parent.order + 1 := by simp only [parent_order]; omega
  rw [b.masked_clear_eq (by omega), b.parent.head_mod (by simpa using h), hT, Nat.pow_succ,
    Nat.mul_comm (2 ^ _) 2, Nat.mod_mul_right_div_self]
  rfl

end Block

/-! ### Coalesced sets -/

/-- The numbers some block of `B` contains. -/
def cover (B : Set Block) : Set ℕ := {p | ∃ b ∈ B, p ∈ b}

theorem mem_cover {B : Set Block} {p : ℕ} : p ∈ cover B ↔ ∃ b ∈ B, p ∈ b := Iff.rfl

@[simp] theorem cover_empty : cover ∅ = ∅ := by
  ext p
  simp [mem_cover]

@[simp] theorem mem_cover_insert {B : Set Block} {b : Block} {p : ℕ} :
    p ∈ cover (insert b B) ↔ p ∈ b ∨ p ∈ cover B := by
  simp [mem_cover, Set.mem_insert_iff]

/-- Blocks of order at most `top`, disjoint, with no two buddies below the top order. -/
structure Coalesced (top : ℕ) (B : Set Block) : Prop where
  order_le : ∀ b ∈ B, b.order ≤ top
  disjoint : ∀ b ∈ B, ∀ c ∈ B, ∀ p, p ∈ b → p ∈ c → b = c
  merged : ∀ b ∈ B, b.order < top → b.buddy ∉ B

theorem coalesced_empty (top : ℕ) : Coalesced top ∅ where
  order_le := fun _ h => h.elim
  disjoint := fun _ h => h.elim
  merged := fun _ h => h.elim

namespace Coalesced

variable {top : ℕ} {B B' : Set Block}

/-- **An aligned run inside the cover lies in a single block.**  Induction on the
order: two halves lying in two different blocks would be two unmerged buddies. -/
theorem exists_above (hB : Coalesced top B) : ∀ k, k ≤ top → ∀ b : Block, b.order = k →
    (∀ p ∈ b, p ∈ cover B) → ∃ c ∈ B, k ≤ c.order ∧ ∀ p ∈ b, p ∈ c := by
  intro k
  induction k with
  | zero =>
    intro _ b hk hcov
    obtain ⟨c, hc, hmem⟩ := hcov b.head b.head_mem
    exact ⟨c, hc, Nat.zero_le _, fun p hp =>
      Block.mem_of_le b.head_mem hmem (by omega) hp⟩
  | succ k ih =>
    intro hk b hbk hcov
    have hpos : 0 < b.order := by omega
    have hsplit := fun p => Block.mem_iff_low_or_high hpos (p := p)
    obtain ⟨c, hc, hck, hlow⟩ := ih (by omega) b.low (by simp [hbk])
      fun p hp => hcov p ((hsplit p).mpr (Or.inl hp))
    obtain ⟨d, hd, hdk, hhigh⟩ := ih (by omega) b.high (by simp [hbk])
      fun p hp => hcov p ((hsplit p).mpr (Or.inr hp))
    have hlowmem : b.low.head ∈ b := (hsplit _).mpr (Or.inl b.low.head_mem)
    have hhighmem : b.high.head ∈ b := (hsplit _).mpr (Or.inr b.high.head_mem)
    rcases Nat.lt_or_ge k c.order with h | h
    · exact ⟨c, hc, h, fun p hp => Block.mem_of_le hlowmem (hlow _ b.low.head_mem) (by omega) hp⟩
    rcases Nat.lt_or_ge k d.order with h' | h'
    · exact ⟨d, hd, h', fun p hp =>
        Block.mem_of_le hhighmem (hhigh _ b.high.head_mem) (by omega) hp⟩
    -- both halves are blocks of `B` themselves, so they were never merged
    have hcl : c = b.low :=
      Block.eq_of_mem (hlow _ b.low.head_mem) b.low.head_mem (by simp; omega)
    have hdh : d = b.high :=
      Block.eq_of_mem (hhigh _ b.high.head_mem) b.high.head_mem (by simp; omega)
    refine absurd ?_ (hB.merged d hd (by omega))
    rw [hdh, Block.buddy_high, ← hcl]
    exact hc

/-- The blocks are the maximal aligned runs of the cover. -/
theorem mem_iff (hB : Coalesced top B) {b : Block} :
    b ∈ B ↔ b.order ≤ top ∧ (∀ p ∈ b, p ∈ cover B) ∧
      (b.order < top → ∃ p ∈ b.parent, p ∉ cover B) := by
  constructor
  · intro hb
    refine ⟨hB.order_le b hb, fun p hp => ⟨b, hb, hp⟩, fun hlt => ?_⟩
    by_contra hcov
    push Not at hcov
    obtain ⟨c, hc, hle, hsub⟩ := hB.exists_above _ hlt b.parent rfl hcov
    have hbc := hB.disjoint b hb c hc _ b.head_mem
      (hsub _ (Block.mem_parent_of_mem b.head_mem))
    rw [hbc] at hle
    omega
  · rintro ⟨hle, hcov, hmax⟩
    obtain ⟨c, hc, hbc, hsub⟩ := hB.exists_above _ hle b rfl hcov
    have hctop := hB.order_le c hc
    rcases Nat.eq_or_lt_of_le hbc with h | h
    · rwa [Block.eq_of_mem b.head_mem (hsub _ b.head_mem) h]
    · obtain ⟨p, hp, hpcov⟩ := hmax (by omega)
      exact absurd ⟨c, hc, Block.mem_of_le (Block.mem_parent_of_mem b.head_mem)
        (hsub _ b.head_mem) h hp⟩ hpcov

/-- **A coalesced set is determined by its cover.** -/
theorem eq_of_cover (hB : Coalesced top B) (hB' : Coalesced top B') (h : cover B = cover B') :
    B = B' := by
  ext b
  rw [hB.mem_iff, hB'.mem_iff, h]

theorem erase (hB : Coalesced top B) (b : Block) : Coalesced top (B \ {b}) where
  order_le := fun c hc => hB.order_le c hc.1
  disjoint := fun c hc d hd => hB.disjoint c hc.1 d hd.1
  merged := fun c hc hlt h => hB.merged c hc.1 hlt h.1

theorem mem_cover_erase (hB : Coalesced top B) {b : Block} (hb : b ∈ B) {p : ℕ} :
    p ∈ cover (B \ {b}) ↔ p ∈ cover B ∧ p ∉ b := by
  constructor
  · rintro ⟨c, ⟨hc, hne⟩, hp⟩
    exact ⟨⟨c, hc, hp⟩, fun hpb => hne (hB.disjoint c hc b hb p hp hpb)⟩
  · rintro ⟨⟨c, hc, hp⟩, hpb⟩
    exact ⟨c, ⟨hc, fun h => hpb (h ▸ hp)⟩, hp⟩

/-- A block outside the cover may join when its buddy is not there. -/
theorem insert (hB : Coalesced top B) {b : Block} (hle : b.order ≤ top)
    (hout : ∀ p ∈ b, p ∉ cover B) (hbuddy : b.order < top → b.buddy ∉ B) :
    Coalesced top (insert b B) where
  order_le := by
    rintro c (rfl | hc)
    · exact hle
    · exact hB.order_le c hc
  disjoint := by
    rintro c (rfl | hc) d (rfl | hd) p hpc hpd
    · rfl
    · exact absurd ⟨d, hd, hpd⟩ (hout p hpc)
    · exact absurd ⟨c, hc, hpc⟩ (hout p hpd)
    · exact hB.disjoint c hc d hd p hpc hpd
  merged := by
    rintro c (rfl | hc) hlt (h | h)
    · exact Block.buddy_ne _ h
    · exact hbuddy hlt h
    · rw [← h] at hbuddy
      rw [Block.buddy_buddy] at hbuddy
      exact hbuddy hlt hc
    · exact hB.merged c hc hlt h

end Coalesced

end Aligned
