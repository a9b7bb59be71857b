import Comex.Lib.Congruential
import Comex.Remote.Coherence

/-!
# The search for a memory node

`COMEX_move_to_Remote` starts at the node `COMEX_hash` makes of the process and
goes on by hashing the node it is at, `COMEX_nMemNodes` times in all.  The hash is
`(seed * COMEX_ID + 1) % COMEX_nMemNodes` in C's arithmetic: the product may have
no value, the remainder of a negative number is not positive, and whether the
probes meet every node depends on the multiplier.

## Main definitions

* `visits` — the nodes a call probes.
* `Usable`, `ValidSearch` — what the search is for.
* `GoodHash` — the options and processes for which it does that.

## Main results

* `GoodHash.probe_hits` — under the conditions the probes meet every node.
* `reach_validSearch_iff` — **the search is valid and exhaustive in every reachable
  state exactly under the conditions.**
-/

namespace Comex
namespace Node

variable {α : Type} {cfg : Config} {s : Node α}

/-- A value of an `int` expression; one that overflows has none. -/
def IntOk (x : ℤ) : Prop := -2 ^ 31 ≤ x ∧ x < 2 ^ 31

instance (x : ℤ) : Decidable (IntOk x) := inferInstanceAs (Decidable (_ ∧ _))

/-- `COMEX_hash` of a seed has a value. -/
structure HashOk (cfg : Config) (seed : ℤ) : Prop where
  product : IntOk (seed * cfg.comexID)
  sum : IntOk (seed * cfg.comexID + 1)

/-- A probe of `COMEX_move_to_Remote` until it decides: the level of the list is looked
at, and a filled slot at the tail is flushed. -/
def look (cfg : Config) (s : Node α) (dest : ℤ) : Node α :=
  let s := s.setGroup dest ((s.group dest).request cfg.threshold).2
  if ((s.ring dest).desc (s.ring dest).tail).status = .filled then s.flushBuff cfg dest else s

theorem probe_succ (a : α) (n : ℕ) (dest : ℤ) (s : Node α) : probe cfg a (n + 1) dest s =
    if 0 ≤ dest ∧ dest < cfg.totalNodes then
      if (s.look cfg dest).CanStore dest then
        ((s.look cfg dest).storePage cfg dest a).map fun (s, pageNO, slot) =>
          (if slot % 32 = 0 ∧ slot ≠ 0 then s.flushBuff cfg dest else s, some (dest, pageNO))
      else probe cfg a n (hash cfg dest) (s.look cfg dest)
    else none := rfl

/-- The nodes the probes of a call are at, and whether the page was stored there. -/
def visits (cfg : Config) : ℕ → ℤ → Node α → List (ℤ × Bool)
  | 0, _, _ => []
  | n + 1, dest, s =>
    if 0 ≤ dest ∧ dest < cfg.totalNodes then
      if (s.look cfg dest).CanStore dest then [(dest, true)]
      else (dest, false) :: visits cfg n (hash cfg dest) (s.look cfg dest)
    else [(dest, false)]

/-- Node `v` has a page, and a slot at its tail that is free or becomes free by a flush. -/
def Usable (cfg : Config) (s : Node α) (v : ℤ) : Prop :=
  0 < (s.group v).totalPage ∧
    (((s.ring v).desc (s.ring v).tail).status = .free ∨
      ((s.ring v).desc (s.ring v).tail).status = .filled ∧
        (((s.flushBuff cfg v).ring v).desc ((s.flushBuff cfg v).ring v).tail).status = .free)

instance (cfg : Config) (s : Node α) (v : ℤ) : Decidable (Usable cfg s v) :=
  inferInstanceAs (Decidable (_ ∧ _))

/-- A call of `COMEX_move_to_Remote` for a page of process `pid` hashes without overflow,
probes memory nodes only, and gives up only if none can take the page. -/
structure ValidSearch (cfg : Config) (pid : ℤ) (s : Node α) : Prop where
  hash_pid : HashOk cfg pid
  in_range : ∀ v ∈ visits cfg cfg.nMemNodes (hash cfg pid) s, 0 ≤ v.1 ∧ v.1 < cfg.nMemNodes
  hash_next : ∀ v ∈ visits cfg cfg.nMemNodes (hash cfg pid) s, v.2 = false → HashOk cfg v.1
  exhaustive : ∀ a s', moveToRemote cfg s pid a = some (s', none) →
    ∀ v : ℤ, 0 ≤ v → v < cfg.nMemNodes → ¬ Usable cfg s v

/-- When the search does that: nothing overflows, the first remainder is not negative, the
multiplier is not either unless there are two nodes at most, and it meets the conditions of a
full period. -/
structure GoodHash (cfg : Config) (pid : ℤ) : Prop where
  pid_ok : HashOk cfg pid
  node_ok : ∀ x : ℤ, 0 ≤ x → x < cfg.nMemNodes → HashOk cfg x
  first : 0 ≤ pid * cfg.comexID + 1 ∨ (cfg.nMemNodes : ℤ) ∣ pid * cfg.comexID + 1
  multiplier : 0 ≤ cfg.comexID ∨ cfg.nMemNodes ≤ 2
  full : Congruential.Full cfg.comexID cfg.nMemNodes

/-! ### The hash -/

section Hash

theorem toInt_eq {x : ℤ} (h : IntOk x) : toInt x = x := by
  obtain ⟨h1, h2⟩ := h
  rw [toInt, Int.bmod_def]
  omega

variable {seed : ℤ}

theorem HashOk.hash_eq (h : HashOk cfg seed) :
    hash cfg seed = (seed * cfg.comexID + 1).tmod cfg.nMemNodes := by
  rw [hash, toInt_eq h.product, toInt_eq h.sum]

/-- The hash is one step of the congruential sequence. -/
theorem HashOk.modEq (h : HashOk cfg seed) :
    hash cfg seed ≡ Congruential.next cfg.comexID seed [ZMOD cfg.nMemNodes] := by
  rw [h.hash_eq, Congruential.next, Int.tmod_def]
  exact Int.modEq_iff_dvd.mpr ⟨(seed * cfg.comexID + 1).tdiv cfg.nMemNodes, by ring⟩

theorem HashOk.lt (h : HashOk cfg seed) (hn : 0 < cfg.nMemNodes) :
    hash cfg seed < cfg.nMemNodes := by
  rw [h.hash_eq]
  exact Int.tmod_lt_of_pos _ (by omega)

/-- The remainder of a negative number is not positive. -/
theorem HashOk.nonneg_iff (h : HashOk cfg seed) :
    0 ≤ hash cfg seed ↔ 0 ≤ seed * cfg.comexID + 1 ∨
      (cfg.nMemNodes : ℤ) ∣ seed * cfg.comexID + 1 := by
  rw [h.hash_eq]
  generalize seed * cfg.comexID + 1 = x
  constructor
  · intro h0
    by_contra hc
    obtain ⟨hneg, hndvd⟩ := not_or.mp hc
    have hle : x.tmod cfg.nMemNodes ≤ 0 := by
      have hopp := Int.tmod_nonneg (cfg.nMemNodes : ℤ) (show 0 ≤ -x by omega)
      rw [Int.neg_tmod] at hopp
      omega
    exact hndvd (Int.dvd_of_tmod_eq_zero (le_antisymm hle h0))
  · rintro (h0 | hd)
    · exact Int.tmod_nonneg _ h0
    · exact (Int.tmod_eq_zero_of_dvd hd).ge

/-- The `i`-th probe follows the sequence as long as the hashes before it have values. -/
theorem iterate_modEq {x : ℤ} {k : ℕ} (h : ∀ j < k, HashOk cfg ((hash cfg)^[j] x)) :
    (hash cfg)^[k] x ≡ (Congruential.next cfg.comexID)^[k] x [ZMOD cfg.nMemNodes] := by
  induction k with
  | zero => exact Int.ModEq.refl x
  | succ k ih =>
    rw [Function.iterate_succ_apply', Function.iterate_succ_apply']
    apply (h k (Nat.lt_succ_self k)).modEq.trans
    exact ((ih fun j hj => h j (Nat.lt_succ_of_lt hj)).mul_right _).add_right 1

end Hash

namespace GoodHash

variable {pid : ℤ}

/-- From a memory node the search goes to a memory node. -/
theorem next_node (h : GoodHash cfg pid) (hn : 0 < cfg.nMemNodes) {x : ℤ} (h0 : 0 ≤ x)
    (hx : x < cfg.nMemNodes) : 0 ≤ hash cfg x ∧ hash cfg x < cfg.nMemNodes := by
  have hok := h.node_ok x h0 hx
  refine ⟨hok.nonneg_iff.mpr ?_, hok.lt hn⟩
  rcases h.multiplier with hid | hsmall
  · exact Or.inl (by have := Int.mul_nonneg h0 hid; omega)
  · obtain hn1 | hn2 : cfg.nMemNodes = 1 ∨ cfg.nMemNodes = 2 := by omega
    · exact Or.inr (by simp [hn1])
    · obtain rfl | rfl : x = 0 ∨ x = 1 := by omega
      · exact Or.inl (by omega)
      · -- an odd multiplier leads back from node 1
        have hodd := h.full.prime 2 Nat.prime_two (by rw [hn2])
        rw [hn2]
        exact Or.inr (by push_cast at hodd ⊢; omega)

/-- Every probe is of a memory node. -/
theorem probe_node (h : GoodHash cfg pid) (hn : 0 < cfg.nMemNodes) (i : ℕ) :
    0 ≤ (hash cfg)^[i + 1] pid ∧ (hash cfg)^[i + 1] pid < cfg.nMemNodes := by
  induction i with
  | zero => exact ⟨h.pid_ok.nonneg_iff.mpr h.first, h.pid_ok.lt hn⟩
  | succ i ih =>
    rw [Function.iterate_succ_apply']
    exact h.next_node hn ih.1 ih.2

/-- **The probes meet every memory node.** -/
theorem probe_hits (h : GoodHash cfg pid) (hn : 0 < cfg.nMemNodes) {v : ℤ} (h0 : 0 ≤ v)
    (hv : v < cfg.nMemNodes) : ∃ i < cfg.nMemNodes, (hash cfg)^[i + 1] pid = v := by
  have hok : ∀ j, HashOk cfg ((hash cfg)^[j] pid) := by
    intro j
    cases j with
    | zero => exact h.pid_ok
    | succ j => exact h.node_ok _ (h.probe_node hn j).1 (h.probe_node hn j).2
  obtain ⟨i, hi, heq⟩ := (Congruential.covers_iff hn pid).mpr h.full v
  obtain ⟨hi0, hiv⟩ := h.probe_node hn i
  refine ⟨i, hi, ?_⟩
  have hmod := (iterate_modEq fun j _ => hok j).trans heq
  rwa [Int.ModEq, Int.emod_eq_of_lt hi0 hiv, Int.emod_eq_of_lt h0 hv] at hmod

end GoodHash

/-! ### The probes -/

section Probes

theorem flushBuff_group (s : Node α) (d : ℤ) : (s.flushBuff cfg d).group = s.group := by
  unfold flushBuff
  split <;> rfl

/-- A flush is about one ring, and what becomes of it depends on nothing else. -/
theorem flushBuff_ring (s : Node α) (d v : ℤ) (hv : v ≠ d) :
    (s.flushBuff cfg d).ring v = s.ring v := by
  unfold flushBuff
  split
  · rw [setRing_ring, if_neg hv]
  · rw [setRing_ring, if_neg hv]
    rfl

theorem flushBuff_ring_congr {s t : Node α} {d : ℤ} (h : s.ring d = t.ring d) :
    (s.flushBuff cfg d).ring d = (t.flushBuff cfg d).ring d := by
  unfold flushBuff
  rw [h]
  split
  · rw [setRing_ring, setRing_ring, if_pos rfl, if_pos rfl]
  · rw [setRing_ring, setRing_ring, if_pos rfl, if_pos rfl]

theorem request_totalPage (threshold : ℤ) (g : FreeGroup) :
    (g.request threshold).2.totalPage = g.totalPage := by
  unfold FreeGroup.request
  split
  · split <;> rfl
  · rfl

theorem look_totalPage (s : Node α) (d v : ℤ) :
    ((s.look cfg d).group v).totalPage = (s.group v).totalPage := by
  have hset : ((s.setGroup d ((s.group d).request cfg.threshold).2).group v).totalPage =
      (s.group v).totalPage := by
    rw [setGroup_group]
    split
    · next hv => rw [request_totalPage, hv]
    · rfl
  unfold look
  simp only
  split
  · rw [flushBuff_group, hset]
  · exact hset

/-- A probe leaves the rings of the other nodes alone. -/
theorem look_ring (s : Node α) {d v : ℤ} (hv : v ≠ d) : (s.look cfg d).ring v = s.ring v := by
  unfold look
  simp only
  split
  · rw [flushBuff_ring _ _ _ hv]
    rfl
  · rfl

theorem usable_congr {s t : Node α} {v : ℤ}
    (htotal : (t.group v).totalPage = (s.group v).totalPage) (hring : t.ring v = s.ring v) :
    Usable cfg t v ↔ Usable cfg s v := by
  rw [Usable, Usable, htotal, hring, flushBuff_ring_congr hring]

/-- **A probe decides by what the node is good for.** -/
theorem canStore_look_iff (s : Node α) (d : ℤ) : (s.look cfg d).CanStore d ↔ Usable cfg s d := by
  rw [CanStore, Usable, look_totalPage]
  apply and_congr_right
  intro _
  unfold look
  have hring : (s.setGroup d ((s.group d).request cfg.threshold).2).ring d = s.ring d := rfl
  simp only [hring]
  by_cases hfull : ((s.ring d).desc (s.ring d).tail).status = .filled
  · rw [if_pos hfull, flushBuff_ring_congr hring]
    simp [hfull]
  · rw [if_neg hfull, hring]
    simp [hfull]

/-- Giving up means that no node probed was usable. Where a node is probed again, its first
probe says so. -/
theorem not_usable_of_probe {a : α} {s' : Node α} : ∀ {n : ℕ} {dest : ℤ} {s : Node α},
    probe cfg a n dest s = some (s', none) →
    ∀ i < n, ¬ Usable cfg s ((hash cfg)^[i] dest) := by
  intro n
  induction n with
  | zero => exact fun _ i hi => absurd hi (Nat.not_lt_zero i)
  | succ n ih =>
    intro dest s h i hi
    rw [probe_succ] at h
    split at h
    · split at h
      · obtain ⟨r, -, hr⟩ := Option.map_eq_some_iff.mp h
        exact absurd (congrArg Prod.snd hr) (by simp)
      · next hstore =>
        rw [canStore_look_iff] at hstore
        by_cases hfirst : (hash cfg)^[i] dest = dest
        · rwa [hfirst]
        · cases i with
          | zero => exact absurd rfl hfirst
          | succ i =>
            have hlater := ih h i (Nat.lt_of_succ_lt_succ hi)
            rw [← Function.iterate_succ_apply] at hlater
            rwa [usable_congr (look_totalPage s dest _) (look_ring s hfirst)] at hlater
    · exact absurd h (by simp)

/-- The probes stay where the hash leads. -/
theorem visits_mem {n : ℕ} : ∀ {dest : ℤ} {s : Node α}, ∀ v ∈ visits cfg n dest s,
    ∃ i, v.1 = (hash cfg)^[i] dest := by
  induction n with
  | zero => exact fun v hv => absurd hv List.not_mem_nil
  | succ n ih =>
    intro dest s v hv
    rw [visits] at hv
    have hsingle : ∀ b, v ∈ [(dest, b)] → ∃ i, v.1 = (hash cfg)^[i] dest := fun b hb =>
      ⟨0, by rw [List.mem_singleton.mp hb]; rfl⟩
    split at hv
    · split at hv
      · exact hsingle _ hv
      · rcases List.mem_cons.mp hv with rfl | hv
        · exact ⟨0, rfl⟩
        · obtain ⟨i, hi⟩ := ih v hv
          exact ⟨i + 1, hi⟩
    · exact hsingle _ hv

/-- Nodes without pages are probed one after the other, and the call gives up; the looks on the
way change `back_off` and no level. -/
theorem visits_of_empty (a : α) (n : ℕ) : ∀ (dest : ℤ) {s : Node α},
    (∀ v ∈ visits cfg n dest s, 0 ≤ v.1 ∧ v.1 < cfg.totalNodes) →
    (∀ i < n, (s.group ((hash cfg)^[i] dest)).totalPage ≤ 0) →
    (∀ i < n, ((hash cfg)^[i] dest, false) ∈ visits cfg n dest s) ∧
      ∃ s', probe cfg a n dest s = some (s', none) := by
  induction n with
  | zero => exact fun _ _ _ _ => ⟨fun i hi => absurd hi (Nat.not_lt_zero i), _, rfl⟩
  | succ n ih =>
    intro dest s hrange hempty
    have hno : ¬ (s.look cfg dest).CanStore dest := by
      intro hstore
      have hpos := hstore.1
      rw [look_totalPage] at hpos
      exact absurd (hempty 0 (Nat.succ_pos n)) (Int.not_le.mpr hpos)
    rw [probe_succ]
    rw [visits] at hrange ⊢
    simp only [if_neg hno] at hrange ⊢
    by_cases hin : 0 ≤ dest ∧ dest < cfg.totalNodes
    · rw [if_pos hin] at hrange ⊢
      rw [if_pos hin]
      obtain ⟨hvisits, hprobe⟩ := ih _ (fun v hv => hrange v (List.mem_cons_of_mem _ hv))
        fun i hi => by
          rw [look_totalPage, ← Function.iterate_succ_apply]
          exact hempty (i + 1) (Nat.succ_lt_succ hi)
      refine ⟨fun i hi => ?_, hprobe⟩
      cases i with
      | zero => exact List.mem_cons_self
      | succ i => exact List.mem_cons_of_mem _ (hvisits i (Nat.lt_of_succ_lt_succ hi))
    · rw [if_neg hin] at hrange
      exact absurd (hrange (dest, false) List.mem_cons_self) hin

end Probes

/-! ### Every reachable state -/

variable {pid : ℤ} {space : ℤ → α} {remote : ℤ → ℤ → α}

/-- Under the conditions the search is as it should be in every state. -/
theorem GoodHash.validSearch (h : GoodHash cfg pid) (hn : 0 < cfg.nMemNodes) (s : Node α) :
    ValidSearch cfg pid s := by
  have hrange : ∀ v ∈ visits cfg cfg.nMemNodes (hash cfg pid) s, 0 ≤ v.1 ∧ v.1 < cfg.nMemNodes := by
    intro v hv
    obtain ⟨i, hi⟩ := visits_mem v hv
    rw [hi, ← Function.iterate_succ_apply]
    exact h.probe_node hn i
  refine ⟨h.pid_ok, hrange, fun v hv _ => ?_, fun a s' hfail v h0 hv => ?_⟩
  · exact h.node_ok v.1 (hrange v hv).1 (hrange v hv).2
  · obtain ⟨i, hi, rfl⟩ := h.probe_hits hn h0 hv
    rw [Function.iterate_succ_apply]
    exact not_usable_of_probe hfail i hi

/-- A node that was lent one page. -/
theorem reach_lent {v : ℤ} (h0 : 0 ≤ v) (hv : v < cfg.totalNodes) :
    Reach cfg space remote Legal ((init space remote).pageReceive cfg v 0 0) := by
  refine Machine.Reach.next (a := Op.pageReceive v 0 0) (.start rfl) ?_ ?_
  · intro i _ hgranted
    rcases hgranted with ⟨x, hx, -⟩ | hlatest
    · exact absurd hx List.not_mem_nil
    · exact absurd hlatest (by simp [init])
  · show step cfg _ _ = some _
    simp only [step, Op.node]
    exact if_pos ⟨h0, hv⟩

/-- In the first state no node is usable, so every probe is made. -/
theorem ValidSearch.init_probes (h : ValidSearch cfg pid (init space remote))
    (htot : cfg.nMemNodes ≤ cfg.totalNodes) {i : ℕ} (hi : i < cfg.nMemNodes) :
    (0 ≤ (hash cfg)^[i + 1] pid ∧ (hash cfg)^[i + 1] pid < cfg.nMemNodes) ∧
      HashOk cfg ((hash cfg)^[i + 1] pid) := by
  have hmem := (visits_of_empty (space 0) cfg.nMemNodes (hash cfg pid) (s := init space remote)
    (fun v hv => ⟨(h.in_range v hv).1, by
      have := (h.in_range v hv).2
      omega⟩) fun i _ => le_refl 0).1 i hi
  rw [← Function.iterate_succ_apply] at hmem
  exact ⟨h.in_range _ hmem, h.hash_next _ hmem rfl⟩

/-- A node that the probes miss may be the only usable one. -/
theorem ValidSearch.hits (htot : cfg.nMemNodes ≤ cfg.totalNodes) {v : ℤ} (h0 : 0 ≤ v)
    (hv : v < cfg.nMemNodes)
    (h : ValidSearch cfg pid ((init space remote).pageReceive cfg v 0 0)) :
    ∃ i < cfg.nMemNodes, (hash cfg)^[i + 1] pid = v := by
  by_contra hmiss
  have hmiss' : ∀ i < cfg.nMemNodes, (hash cfg)^[i + 1] pid ≠ v := fun i hi heq =>
    hmiss ⟨i, hi, heq⟩
  obtain ⟨-, s', hfail⟩ := visits_of_empty (space 0) cfg.nMemNodes (hash cfg pid)
    (s := (init space remote).pageReceive cfg v 0 0) (fun w hw => ⟨(h.in_range w hw).1, by
      have := (h.in_range w hw).2
      omega⟩) fun i hi => by
        have hne := hmiss' i hi
        rw [Function.iterate_succ_apply] at hne
        rw [pageReceive, setGroup_group, if_neg hne]
        exact le_refl 0
  refine h.exhaustive (space 0) s' hfail v h0 hv ⟨?_, Or.inl rfl⟩
  rw [pageReceive, setGroup_group, if_pos rfl]
  unfold FreeGroup.pageReceive
  simp only [le_refl, if_true]
  split <;> exact (by decide : (0 : ℤ) < 0 + 2 ^ 0)

/-- A negative multiplier leads from every node but 0 to node 0 at best. -/
theorem multiplier_of_probes (hpid : -1 ≤ pid) (hid : cfg.comexID < 0)
    (hfull : Congruential.Full cfg.comexID cfg.nMemNodes)
    (hpid_ok : HashOk cfg pid)
    (hprobe : ∀ i < cfg.nMemNodes, (0 ≤ (hash cfg)^[i + 1] pid ∧
      (hash cfg)^[i + 1] pid < cfg.nMemNodes) ∧ HashOk cfg ((hash cfg)^[i + 1] pid))
    (hhits : ∀ v : ℤ, 0 ≤ v → v < cfg.nMemNodes →
      ∃ i < cfg.nMemNodes, (hash cfg)^[i + 1] pid = v) : cfg.nMemNodes ≤ 2 := by
  by_contra hlarge
  -- only the first probe can be of another node than 0 and 1
  have hlater : ∀ i, i + 1 < cfg.nMemNodes →
      (hash cfg)^[i + 2] pid = 0 ∨ (hash cfg)^[i + 2] pid = 1 := by
    intro i hi
    obtain ⟨⟨h0, -⟩, hok⟩ := hprobe i (by omega)
    obtain ⟨⟨h0', -⟩, -⟩ := hprobe (i + 1) hi
    rw [Function.iterate_succ_apply'] at h0' ⊢
    rw [hok.hash_eq] at h0' ⊢
    generalize (hash cfg)^[i + 1] pid = x at *
    rcases h0.eq_or_lt with rfl | hpos
    · right
      rw [Int.zero_mul, Int.zero_add]
      exact Int.tmod_eq_of_lt (by omega) (by omega)
    · left
      have hneg : x * cfg.comexID + 1 ≤ 0 := by nlinarith
      have hopp := Int.tmod_nonneg (cfg.nMemNodes : ℤ)
        (show 0 ≤ -(x * cfg.comexID + 1) by omega)
      rw [Int.neg_tmod] at hopp
      omega
  have hfirst : ∀ v : ℤ, 2 ≤ v → v < cfg.nMemNodes → hash cfg pid = v := by
    intro v h2 hv
    obtain ⟨i, hi, heq⟩ := hhits v (by omega) hv
    cases i with
    | zero => exact heq
    | succ i =>
      have hsmall := hlater i hi
      rw [show (hash cfg)^[i + 2] pid = v from heq] at hsmall
      omega
  have h3 : cfg.nMemNodes = 3 := by
    by_contra hne
    have h2 := hfirst 2 le_rfl (by omega)
    have h3 := hfirst 3 (by omega) (by omega)
    omega
  -- node 2 is the first probe, which a process cannot hash to
  have htwo := hfirst 2 le_rfl (by omega)
  have hdvd := hfull.prime 3 Nat.prime_three (by rw [h3])
  have hmod := hpid_ok.modEq
  have hsign := hpid_ok.nonneg_iff.mp (by omega)
  rw [htwo, h3, Congruential.next, Int.ModEq] at hmod
  rw [h3] at hsign
  push_cast at hmod hsign hdvd
  rcases le_or_gt pid 0 with hle | hpos
  · obtain rfl | rfl : pid = 0 ∨ pid = -1 := by omega
    · omega
    · omega
  · have hneg : pid * cfg.comexID ≤ -1 := by nlinarith
    omega

/-- **When the search is valid and exhaustive**: in every reachable state exactly for the
options and processes that meet the conditions.  They are read off the first state and those in
which one node has lent; the orbit of the hash gives the converse. -/
theorem reach_validSearch_iff (hn : 0 < cfg.nMemNodes) (htot : cfg.nMemNodes ≤ cfg.totalNodes)
    (hpid : -1 ≤ pid) :
    (∀ s, Reach cfg space remote Legal s → ValidSearch cfg pid s) ↔ GoodHash cfg pid := by
  refine ⟨fun hall => ?_, fun h s _ => h.validSearch hn s⟩
  have hinit := hall _ (.start rfl)
  have hprobe := fun i (hi : i < cfg.nMemNodes) => hinit.init_probes htot hi
  have hhits : ∀ v : ℤ, 0 ≤ v → v < cfg.nMemNodes →
      ∃ i < cfg.nMemNodes, (hash cfg)^[i + 1] pid = v := fun v h0 hv =>
    ValidSearch.hits htot h0 hv (hall _ (reach_lent h0 (by omega)))
  have hok : ∀ j ≤ cfg.nMemNodes, HashOk cfg ((hash cfg)^[j] pid) := by
    intro j hj
    cases j with
    | zero => exact hinit.hash_pid
    | succ j => exact (hprobe j hj).2
  -- every memory node is hit, so the sequence meets all residues
  have hfull : Congruential.Full cfg.comexID cfg.nMemNodes := by
    apply Congruential.full_of_covers (x := pid)
    intro y
    have hpos : (0 : ℤ) < cfg.nMemNodes := by omega
    obtain ⟨i, hi, heq⟩ := hhits (y % cfg.nMemNodes) (Int.emod_nonneg _ hpos.ne')
      (Int.emod_lt_of_pos _ hpos)
    refine ⟨i, hi, (iterate_modEq fun j hj => hok j (by omega)).symm.trans ?_⟩
    rw [heq]
    exact Int.mod_modEq y _
  refine ⟨hinit.hash_pid, fun x h0 hx => ?_, ?_, ?_, hfull⟩
  · obtain ⟨i, hi, rfl⟩ := hhits x h0 hx
    exact (hprobe i hi).2
  · exact hinit.hash_pid.nonneg_iff.mp (hprobe 0 hn).1.1
  · by_contra hc
    obtain ⟨hneg, hlarge⟩ := not_or.mp hc
    exact hlarge (multiplier_of_probes hpid (by omega) hfull hinit.hash_pid hprobe hhits)

/-- Two memory nodes and two compute nodes, of which this is the first. -/
def evenConfig : Config where
  comexID := 2
  totalNodes := 4
  nMemNodes := 2
  totalWriteOut := 2
  totalReadIn := 16
  threshold := 0
  refill := 10

/-- Three memory nodes, and the multiplier 4. -/
def goodConfig : Config := { evenConfig with comexID := 4, totalNodes := 5, nMemNodes := 3 }

/-- Process 7 of a node with the multiplier 4 finds each of three memory nodes; one has
received pages. -/
theorem reach_validSearch_four : ∃ s : Node ℕ,
    Reach goodConfig (fun _ => 0) (fun _ _ => 0) Legal s ∧ Usable goodConfig s 0 ∧
      ValidSearch goodConfig 7 s := by
  obtain ⟨s, hs, huse⟩ := Machine.exists_reach_of_exec
    (init (fun _ => 0) (fun _ _ => 0) : Node ℕ) Legal (step goodConfig)
    (fun s => Usable goodConfig s 0) [.pageReceive 0 0 0] (by decide)
  refine ⟨s, hs, huse, (reach_validSearch_iff (by decide) (by decide) (by decide)).mpr
    ⟨⟨by decide, by decide⟩, fun x h0 hx => ?_, Or.inl (by decide), Or.inl (by decide), ?_, ?_⟩
    s hs⟩
  · change x < 3 at hx
    constructor
    · show -2 ^ 31 ≤ x * 4 ∧ x * 4 < 2 ^ 31
      omega
    · show -2 ^ 31 ≤ x * 4 + 1 ∧ x * 4 + 1 < 2 ^ 31
      omega
  · intro p hp hd
    rw [(Nat.prime_dvd_prime_iff_eq hp Nat.prime_three).mp hd]
    decide
  · intro h4
    exact absurd h4 (by decide)

/-- **A page without a process is hashed to node -1, and an even multiplier never leads to
node 0**: with a page to use there, a call for process 5 gives up. -/
theorem search_misses :
    visits evenConfig 2 (hash evenConfig (-1)) (init (fun _ => 0) fun _ _ => 0) =
      [(-1, false)] ∧
    (∃ s : Node ℕ, Reach evenConfig (fun _ => 0) (fun _ _ => 0) Legal s ∧
      Usable evenConfig s 0 ∧ (moveToRemote evenConfig s 5 0).map Prod.snd = some none) ∧
    ¬ ∀ (cfg : Config) (pid : ℤ), 0 < cfg.nMemNodes → cfg.nMemNodes ≤ cfg.totalNodes →
      -1 ≤ pid → ∀ s : Node ℕ, Reach cfg (fun _ => 0) (fun _ _ => 0) Legal s →
        ValidSearch cfg pid s := by
  refine ⟨by decide, ⟨_, reach_lent (le_refl 0) (by decide), ⟨by decide, Or.inl rfl⟩, by decide⟩,
    fun h => ?_⟩
  have hvalid := h evenConfig (-1) (by decide) (by decide) (le_refl _) _ (.start rfl)
  exact absurd (hvalid.in_range (-1, false) (by decide)).1 (by decide)

end Node
end Comex
