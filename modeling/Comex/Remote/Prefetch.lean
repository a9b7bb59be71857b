import Comex.Remote.Coherence
import Mathlib.Logic.Nontrivial.Basic

/-!
# Which page a read over the network fetches

`COMEX_read_from_remote` looks for its page at `pageNO % COMEX_total_readIn` and
fetches the group of 16 pages around it into the group of 16 slots around that
index.  The two groups are cut independently of one another; they line up for
every page only when the cache consists of whole groups, which no option checks.

## Main definitions

* `ReadIn` — a node with what its read-in slots were fetched from.
* `Truthful` — each filled descriptor names the page its slot holds.
* `Fetches` — all that is expected of one read.
* `InStep` — the page lies at the same place in its group as its slot.

## Main results

* `ReadIn.reach_truthful` — what is prefetched is truthful in every run.
* `fetches_iff` — **a read does all that is expected exactly when the groups line up.**
-/

namespace Comex

variable {α : Type}

/-- A node and, for each read-in slot, the memory of the peers at the time of the last
read into it. -/
structure ReadIn (α : Type) where
  node : Node α
  seen : ℤ → ℤ → ℤ → α

namespace ReadIn

/-- `COMEX_read_from_remote`; the slots it reads into see the memory as it is now. -/
def read (cfg : Config) (x : ReadIn α) (nodeID pageNO : ℤ) : ReadIn α where
  node := (x.node.readFromRemote cfg nodeID pageNO).2
  seen k :=
    let buffFLR := preFFloor (pageNO.tmod cfg.totalReadIn)
    if buffFLR ≤ k ∧ k < buffFLR + preFSize then x.node.remote else x.seen k

/-- Each filled descriptor names the page its slot holds a copy of. -/
def Truthful (cfg : Config) (x : ReadIn α) : Prop :=
  ∀ k : ℤ, 0 ≤ k → k < cfg.totalReadIn → (x.node.readIn k).status = .filled →
    x.node.space (getReadInBuff cfg k) =
      x.seen k (x.node.readIn k).nodeID (x.node.readIn k).pageNO

/-! ### Runs -/

/-- What the rest of the node does to the read-in cache: it voids descriptors. -/
structure Elsewhere (cfg : Config) (s t : Node α) : Prop where
  slots : ∀ k : ℤ, 0 ≤ k → k < cfg.totalReadIn →
    t.space (getReadInBuff cfg k) = s.space (getReadInBuff cfg k)
  desc : ∀ k : ℤ, 0 ≤ k → k < cfg.totalReadIn →
    t.readIn k = s.readIn k ∨ (t.readIn k).status ≠ .filled

/-- A read over the network, or a step of the rest of the node and of its peers. -/
inductive Step (cfg : Config) : ReadIn α → Unit → ReadIn α → Prop
  | read {x : ReadIn α} {nodeID pageNO : ℤ} (hp : 0 ≤ pageNO) :
    Step cfg x () (x.read cfg nodeID pageNO)
  | other {x : ReadIn α} {t : Node α} (h : Elsewhere cfg x.node t) :
    Step cfg x () { x with node := t }

/-- The read-in cache of a node, from a state on. -/
def machine (cfg : Config) (x₀ : ReadIn α) : Machine (ReadIn α) Unit where
  init x := x = x₀
  step := Step cfg

section Elsewhere

variable {cfg : Config} {s : Node α} {d : ℤ}

theorem elsewhere_flushBuff (cfg : Config) (s : Node α) (d : ℤ) :
    Elsewhere cfg s (s.flushBuff cfg d) := by
  unfold Node.flushBuff
  split
  · exact ⟨fun _ _ _ => rfl, fun _ _ _ => Or.inl rfl⟩
  · exact ⟨fun _ _ _ => rfl, fun _ _ _ => Or.inl rfl⟩

/-- `COMEX_void_preFetch` leaves a descriptor alone or clears it. -/
theorem voidPreFetch_desc (cfg : Config) (s : Node α) (d p k : ℤ) :
    (s.voidPreFetch cfg d p).readIn k = s.readIn k ∨
      (s.voidPreFetch cfg d p).readIn k = .empty := by
  simp only [Node.voidPreFetch]
  by_cases hhit : (s.readIn (p.tmod cfg.totalReadIn)).nodeID = d ∧
      (s.readIn (p.tmod cfg.totalReadIn)).pageNO = p
  · rw [if_pos hhit, Function.update_apply]
    split
    · exact Or.inr rfl
    · exact Or.inl rfl
  · rw [if_neg hhit]
    exact Or.inl rfl

/-- A page is stored in a write-out slot, so the read-in slots keep their content. -/
theorem elsewhere_storePage (hd : 0 ≤ d ∧ d < cfg.totalNodes)
    (htail : 0 ≤ (s.ring d).tail ∧ (s.ring d).tail < cfg.totalWriteOut) {a : α}
    {r : Node α × ℤ × ℤ} (h : s.storePage cfg d a = some r) : Elsewhere cfg s r.1 := by
  obtain ⟨⟨p, g⟩, -, rfl⟩ := Option.map_eq_some_iff.mp h
  refine ⟨fun k h0 _ => ?_, fun k _ _ => ?_⟩
  · have hlt := Node.writeOut_lt_readIn hd.2 htail.2 h0
    exact Function.update_of_ne (Int.ne_of_gt hlt) _ _
  · rcases voidPreFetch_desc cfg s d p k with hkeep | hvoid
    · exact Or.inl hkeep
    · apply Or.inr
      intro hst
      change ((s.voidPreFetch cfg d p).readIn k).status = .filled at hst
      rw [hvoid] at hst
      exact absurd hst (by decide)

end Elsewhere

section Read

variable {cfg : Config} {x : ReadIn α} {n p : ℤ}

/-- The page that reaches the caller, whatever the options. -/
theorem readFromRemote_fst (cfg : Config) (s : Node α) (n : ℤ) (hp : 0 ≤ p) :
    (s.readFromRemote cfg n p).1 =
      s.remote n (preFFloor p + (p % cfg.totalReadIn - preFFloor (p % cfg.totalReadIn))) := by
  have hfloor := Node.floor_le (p % cfg.totalReadIn)
  simp only [Node.readFromRemote, Int.tmod_eq_emod_of_nonneg hp, getReadInBuff]
  rw [if_pos (by omega)]
  congr 1
  omega

/-- **A read keeps the descriptors truthful**: those of its group name what has just
been fetched, the others and their slots are not touched. -/
theorem Truthful.read (h : Truthful cfg x) : Truthful cfg (x.read cfg n p) := by
  intro k h0 hk hst
  simp only [ReadIn.read, Node.readFromRemote] at hst ⊢
  generalize preFFloor (p.tmod cfg.totalReadIn) = floor at *
  have hslot : getReadInBuff cfg floor ≤ getReadInBuff cfg k ∧
      getReadInBuff cfg k < getReadInBuff cfg floor + preFSize ↔
      floor ≤ k ∧ k < floor + preFSize := by
    unfold getReadInBuff
    omega
  by_cases hin : floor ≤ k ∧ k < floor + preFSize
  · rw [if_pos (hslot.mpr hin), if_pos hin, if_pos hin]
    simp only
    congr 1
    unfold getReadInBuff
    omega
  · rw [if_neg hin] at hst ⊢
    rw [if_neg (fun hc => hin (hslot.mp hc)), if_neg hin]
    exact h k h0 hk hst

theorem Truthful.other (h : Truthful cfg x) {t : Node α} (ht : Elsewhere cfg x.node t) :
    Truthful cfg { x with node := t } := by
  intro k h0 hk hst
  rcases ht.desc k h0 hk with heq | hvoid
  · change (t.readIn k).status = .filled at hst
    change t.space (getReadInBuff cfg k) = x.seen k (t.readIn k).nodeID (t.readIn k).pageNO
    rw [heq] at hst
    rw [ht.slots k h0 hk, heq]
    exact h k h0 hk hst
  · exact absurd hst hvoid

/-- **What is prefetched is truthful in every run.** -/
theorem reach_truthful {y : ReadIn α} (h : Truthful cfg x)
    (hr : Machine.Reach (machine cfg x) Machine.free y) : Truthful cfg y := by
  refine hr.invariant (I := Truthful cfg) ?_ ?_
  · rintro _ rfl
    exact h
  · intro s a s' _ hs _ hstep
    cases hstep with
    | read hp => exact hs.read
    | other ht => exact hs.other ht

/-- A hit yields the page asked for, as it was when its slot was read into. -/
theorem Truthful.hit (h : Truthful cfg x) (hR : 0 < cfg.totalReadIn) (hp : 0 ≤ p) {a : α}
    (hhit : x.node.readFromPreFetch cfg n p = some a) : a = x.seen (p % cfg.totalReadIn) n p := by
  obtain ⟨hst, hn, hpg, ha⟩ := Node.readFromPreFetch_some hp hhit
  have h0 := Int.emod_nonneg p (b := cfg.totalReadIn) (by omega)
  have hlt := Int.emod_lt_of_pos p (b := cfg.totalReadIn) (by omega)
  have htrue := h _ h0 hlt hst
  rw [ha, hn, hpg] at htrue
  exact htrue

end Read

/-! ### What is expected of a read -/

/-- All that is expected of `COMEX_read_from_remote(nodeID, pageNO)`. -/
structure Fetches (cfg : Config) (x : ReadIn α) (nodeID pageNO : ℤ) : Prop where
  /-- The caller gets the page. -/
  content : (x.node.readFromRemote cfg nodeID pageNO).1 = x.node.remote nodeID pageNO
  /-- The descriptors written are descriptors. -/
  in_range : ∀ k, (x.read cfg nodeID pageNO).node.readIn k ≠ x.node.readIn k →
    0 ≤ k ∧ k < cfg.totalReadIn
  /-- The descriptors name what their slots hold. -/
  truthful : Truthful cfg x → Truthful cfg (x.read cfg nodeID pageNO)
  /-- A later hit yields the page asked for, as it was when it was read. -/
  later : Truthful cfg x → ∀ y,
    Machine.Reach (machine cfg (x.read cfg nodeID pageNO)) Machine.free y →
      ∀ n p a, 0 ≤ p → y.node.readFromPreFetch cfg n p = some a →
        a = y.seen (p % cfg.totalReadIn) n p

/-- The page has the place in its group that its index has, and the group of the
index lies in the cache. -/
structure InStep (cfg : Config) (pageNO : ℤ) : Prop where
  place : pageNO % cfg.totalReadIn % preFSize = pageNO % preFSize
  group : preFFloor (pageNO % cfg.totalReadIn) + preFSize ≤ cfg.totalReadIn

section InStep

variable {cfg : Config}

theorem InStep.fetches {p : ℤ} (h : InStep cfg p) (hR : 0 < cfg.totalReadIn) (hp : 0 ≤ p)
    (x : ReadIn α) (n : ℤ) : Fetches cfg x n p where
  content := by
    have hplace := h.place
    have hsize : preFSize = 16 := rfl
    rw [readFromRemote_fst cfg x.node n hp]
    congr 1
    unfold preFFloor
    rw [hsize] at hplace ⊢
    generalize p % (cfg.totalReadIn : ℤ) = r at *
    omega
  in_range := by
    intro k hk
    have h0 := Int.emod_nonneg p (b := cfg.totalReadIn) (by omega)
    have hgroup := h.group
    simp only [ReadIn.read, Node.readFromRemote, Int.tmod_eq_emod_of_nonneg hp] at hk
    split at hk
    · next hin =>
      unfold preFFloor at hin hgroup
      have hsize : preFSize = 16 := rfl
      rw [hsize] at hin hgroup
      omega
    · exact absurd rfl hk
  truthful := Truthful.read
  later := fun htrue y hy n' p' a hp' hhit => (reach_truthful htrue.read hy).hit hR hp' hhit

/-- A memory in which only page `p` has content `a` tells whether `p` was fetched. -/
theorem inStep_of_fetches [Nontrivial α] {n p : ℤ} (hp : 0 ≤ p)
    (h : ∀ x : ReadIn α, Fetches cfg x n p) : InStep cfg p := by
  obtain ⟨a, b, hab⟩ := exists_pair_ne α
  have hx := h ⟨Node.init (fun _ => b) fun _ q => if q = p then a else b, fun _ _ _ => a⟩
  constructor
  · have hcontent := hx.content
    rw [readFromRemote_fst cfg _ n hp] at hcontent
    change (if _ = p then a else b) = (if p = p then a else b) at hcontent
    rw [if_pos rfl] at hcontent
    -- only page `p` has that content
    have heq := by_contra fun hne => hab (by rw [if_neg hne] at hcontent; exact hcontent.symm)
    unfold preFFloor at heq
    have hsize : preFSize = 16 := rfl
    rw [hsize] at heq ⊢
    generalize p % (cfg.totalReadIn : ℤ) = r at *
    omega
  · have hsize : preFSize = 16 := rfl
    apply Int.le_of_sub_one_lt
    refine (hx.in_range (preFFloor (p % cfg.totalReadIn) + preFSize - 1) fun hk => ?_).2
    -- the last descriptor of the group has been filled
    simp only [ReadIn.read, Node.readFromRemote, Int.tmod_eq_emod_of_nonneg hp] at hk
    rw [if_pos (by omega)] at hk
    exact absurd (congrArg BuffDesc.status hk) (by simp [Node.init, BuffDesc.empty])

/-- The groups line up for every page exactly when the cache consists of whole groups. -/
theorem forall_inStep_iff (hR : 0 < cfg.totalReadIn) :
    (∀ p, 0 ≤ p → InStep cfg p) ↔ preFSize ∣ cfg.totalReadIn := by
  have hsize : preFSize = 16 := rfl
  constructor
  · intro h
    -- page `COMEX_total_readIn` has index 0
    have hplace := (h cfg.totalReadIn (by omega)).place
    rw [Int.emod_self, hsize] at hplace
    rw [hsize]
    omega
  · rintro ⟨m, hm⟩ p hp
    rw [hsize] at hm
    have hr := Int.emod_lt_of_pos p (b := cfg.totalReadIn) (by omega)
    refine ⟨?_, ?_⟩
    · exact Int.emod_emod_of_dvd p ⟨m, by rw [hm, hsize]; push_cast; rfl⟩
    · unfold preFFloor
      rw [hsize]
      omega

end InStep

/-- **Which reads fetch the right page.**  For a configuration, all of them do exactly
when `COMEX_total_readIn` is a multiple of 16; for one page, exactly when it has the
place in its group that its index has and the group of the index lies in the cache. -/
theorem fetches_iff [Nontrivial α] {cfg : Config} (hR : 0 < cfg.totalReadIn) :
    ((∀ nodeID p, 0 ≤ p → ∀ x : ReadIn α, Fetches cfg x nodeID p) ↔
        preFSize ∣ cfg.totalReadIn) ∧
      ∀ nodeID p, 0 ≤ p → ((∀ x : ReadIn α, Fetches cfg x nodeID p) ↔ InStep cfg p) := by
  have hone : ∀ nodeID p, 0 ≤ p →
      ((∀ x : ReadIn α, Fetches cfg x nodeID p) ↔ InStep cfg p) := fun nodeID p hp =>
    ⟨inStep_of_fetches hp, fun h x => h.fetches hR hp x nodeID⟩
  refine ⟨?_, hone⟩
  rw [← forall_inStep_iff hR]
  constructor
  · intro h p hp
    exact (hone 0 p hp).mp (h 0 p hp)
  · intro h nodeID p hp
    exact (hone nodeID p hp).mpr (h p hp)

/-- The theorem at a cache of one group, for page 35. -/
theorem fetches_iff_group :
    ((∀ nodeID p, 0 ≤ p → ∀ x : ReadIn ℕ, Fetches smallConfig x nodeID p) ↔
        preFSize ∣ smallConfig.totalReadIn) ∧
      ((∀ x : ReadIn ℕ, Fetches smallConfig x 0 35) ↔ InStep smallConfig 35) :=
  have h := @fetches_iff ℕ _ smallConfig (by decide)
  ⟨h.1, h.2 0 35 (by decide)⟩

/-- With a cache of 20 slots a read of page 20 yields page 16. -/
theorem not_fetches : ¬ ∀ cfg : Config, 0 < cfg.totalReadIn → ∀ (nodeID p : ℤ), 0 ≤ p →
    ∀ x : ReadIn ℤ, Fetches cfg x nodeID p := by
  intro h
  have hcontent := (h { smallConfig with totalReadIn := 20 } (by decide) 0 20 (by decide)
    ⟨Node.init (fun _ => 0) fun _ q => q, fun _ _ q => q⟩).content
  revert hcontent
  decide

end ReadIn
end Comex
