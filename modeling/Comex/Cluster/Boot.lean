import Comex.Cluster.Command

/-!
# How a node gets its pages

A node is started by one command.  `krping_doit` first allocates the chunks of the RDMA
space, one after the other until one cannot be had, and goes on with those it got; then it
reads the options, and with their values `COMEX_init_ENV` frees the pages that have memory.

## Main definitions

* `regisBigspace` — the array of the chunks.
* `boot` — what the allocator has after a command.

## Main results

* `boot_ofOptions` — **a page can be allocated just if every chunk up to its own was had.**
-/

namespace Comex
namespace Boot

open Layout (bufSize pageSize)

variable (kmalloc : ℕ → ℕ)

/-- The loop that allocates, with the address `kmalloc` returns for each chunk, 0 for
`NULL`. -/
def allocate : ℕ → ℕ → (ℕ → ℕ) → (ℕ → ℕ) × ℤ
  | 0, _, bufferpages => (bufferpages, 0)
  | n + 1, i, bufferpages =>
    let bufferpages := Function.update bufferpages i (kmalloc i)
    if bufferpages i = 0 then (bufferpages, -1) else allocate n (i + 1) bufferpages

/-- `regis_bigspace`, with what is in the array `bufferpages` and in the memory behind it, and
what is returned. -/
def regisBigspace (numBigpages : ℕ) (bufferpages : ℕ → ℕ) : (ℕ → ℕ) × ℤ :=
  allocate kmalloc numBigpages 0
    ((List.range numBigpages).foldl (fun pages i => Function.update pages i 0) bufferpages)

/-- What `COMEX_init` passes to `COMEX_init_ENV`. -/
def optionsOf (nodes localPageCount : ℕ) (st : Command.Settings) : Option Layout.Options :=
  if h : 0 ≤ st.writeOutBuff ∧ (0 ≤ st.readInBuff ∧ st.readInBuff < 2 ^ 31) ∧
      0 ≤ st.totalPages ∧ st.totalPages < 2 ^ 31 then
    some
      { nodes := nodes
        writeOut := st.writeOutBuff.toNat
        readIn := st.readInBuff.toNat
        totalPages := st.totalPages.toNat
        localPageCount := localPageCount
        readIn_lt := by omega
        totalPages_lt := by omega }
  else none

/-- The allocator after a command, when the connections have been set up. -/
def boot (pton : Command.Family → List Char → Option (List UInt8)) (nodes localPageCount : ℕ)
    (bufferpages : ℕ → ℕ) (buffer : List Char) (optarg : Option (List Char)) (optint : ℕ)
    (st : Command.Settings) : Option Buddy := do
  let chunks := (regisBigspace kmalloc localPageCount bufferpages).1
  let st ← Command.krpingWriteProc pton buffer optarg optint st
  let opt ← optionsOf nodes localPageCount st
  Layout.initEnv opt chunks

/-! ### The chunks -/

section Chunks

variable {kmalloc : ℕ → ℕ} {bufferpages : ℕ → ℕ} {n i j : ℕ}

/-- The loop writes no chunk before the first it is to allocate. -/
theorem allocate_before (h : j < i) : (allocate kmalloc n i bufferpages).1 j = bufferpages j := by
  induction n generalizing i bufferpages with
  | zero => rfl
  | succ n ih =>
    have hji : j ≠ i := Nat.ne_of_lt h
    simp only [allocate]
    split
    · exact Function.update_of_ne hji _ _
    · rw [ih (Nat.lt_succ_of_lt h), Function.update_of_ne hji]

/-- **A chunk is had if all before it are**: the loop ends at the first `kmalloc` that fails, and
the pointers behind it stay NULL. -/
theorem allocate_apply (hi : i ≤ j) (hj : j < i + n)
    (hnull : ∀ k, i ≤ k → k < i + n → bufferpages k = 0) :
    (allocate kmalloc n i bufferpages).1 j ≠ 0 ↔ ∀ k, i ≤ k → k ≤ j → kmalloc k ≠ 0 := by
  induction n generalizing i bufferpages with
  | zero => omega
  | succ n ih =>
    simp only [allocate, Function.update_self]
    by_cases hk : kmalloc i = 0
    · -- this `kmalloc` fails, and its NULL is kept
      rw [if_pos hk]
      refine iff_of_false (fun hne => hne ?_) fun hall => hall i le_rfl hi hk
      show Function.update bufferpages i (kmalloc i) j = 0
      by_cases hji : j = i
      · rw [hji, Function.update_self, hk]
      · rw [Function.update_of_ne hji]
        exact hnull j hi hj
    · -- this one is had, and the loop goes on behind it
      rw [if_neg hk]
      rcases Nat.eq_or_lt_of_le hi with rfl | hlt
      · rw [allocate_before (Nat.lt_succ_self i), Function.update_self]
        refine ⟨fun _ k hk1 hk2 => ?_, fun _ => hk⟩
        rwa [Nat.le_antisymm hk2 hk1]
      · rw [ih hlt (by omega) fun k hk1 hk2 => by
          rw [Function.update_of_ne (by omega)]
          exact hnull k (by omega) (by omega)]
        constructor
        · intro hall k hk1 hk2
          rcases Nat.eq_or_lt_of_le hk1 with rfl | hk1
          · exact hk
          · exact hall k hk1 hk2
        · exact fun hall k hk1 hk2 => hall k (Nat.le_of_succ_le hk1) hk2

theorem regisBigspace_apply (hj : j < n) : (regisBigspace kmalloc n bufferpages).1 j ≠ 0 ↔
    ∀ k ≤ j, kmalloc k ≠ 0 := by
  have hnull : ∀ (l : List ℕ) (pages : ℕ → ℕ), ∀ k ∈ l,
      l.foldl (fun pages i => Function.update pages i 0) pages k = 0 := by
    intro l
    induction l using List.reverseRecOn with
    | nil => exact fun _ k hk => absurd hk List.not_mem_nil
    | append_singleton l i ih =>
      intro pages k hk
      rw [List.foldl_append, List.foldl_cons, List.foldl_nil]
      by_cases hki : k = i
      · rw [hki, Function.update_self]
      · rw [Function.update_of_ne hki]
        apply ih pages k
        simpa [hki] using hk
  rw [regisBigspace, allocate_apply (Nat.zero_le j) (by omega) fun k _ hk =>
    hnull _ _ k (List.mem_range.mpr (by omega))]
  simp only [Nat.zero_le, true_implies]

end Chunks

/-! ### The pages -/

section Pages

variable {kmalloc : ℕ → ℕ} {opt : Layout.Options}

theorem optionsOf_eq {nodes localPageCount : ℕ} {st : Command.Settings}
    (hn : nodes = opt.nodes) (hl : localPageCount = opt.localPageCount)
    (ht : st.totalPages = opt.totalPages) (hw : st.writeOutBuff = opt.writeOut)
    (hr : st.readInBuff = opt.readIn) : optionsOf nodes localPageCount st = some opt := by
  have hrlt := opt.readIn_lt
  have htlt := opt.totalPages_lt
  subst hn hl
  rw [optionsOf, dif_pos (by omega)]
  simp only [ht, hw, hr, Int.toNat_natCast]

/-- The local address of a page has memory if its chunk has. -/
theorem translateUseraddr_ne_zero {bufferpages : ℕ → ℕ} {p : ℕ} (h : p + opt.slots < 2 ^ 31) :
    ((Layout.localAddr opt p).any fun a => Layout.translateUseraddr bufferpages a ≠ 0) = true ↔
      bufferpages ((p + opt.slots) / 1024) ≠ 0 := by
  have hchunk : (p + opt.slots) * pageSize / bufSize = (p + opt.slots) / 1024 := by
    unfold pageSize bufSize
    omega
  rw [Layout.localAddr_eq h, Option.any_some, decide_eq_true_eq, Layout.translateUseraddr, hchunk]
  by_cases hnull : bufferpages ((p + opt.slots) / 1024) = 0
  · rw [if_pos hnull]
    exact iff_of_false (fun h0 => h0 rfl) fun h0 => h0 hnull
  · rw [if_neg hnull]
    omega

/-- **What a command leaves**: if the space is large enough for its layout, a reachable state
of the allocator, where a page can be allocated just if every chunk up to its own was had. -/
theorem boot_ofOptions (hw : opt.writeOut < 2 ^ 31) (hint : opt.totalPages + opt.slots ≤ 2 ^ 31)
    (hspace : opt.totalPages + opt.slots ≤ 1024 * opt.localPageCount) {name : List Char}
    (hname : Command.Plain name) (hlen : name.length < 100) (c : Char)
    (pton : Command.Family → List Char → Option (List UInt8)) (bufferpages : ℕ → ℕ)
    (optarg : Option (List Char)) (optint : ℕ) (st : Command.Settings) :
    ∃ s, boot kmalloc pton opt.nodes opt.localPageCount bufferpages
        (Command.text (Command.ofOptions opt name) ++ [c]) optarg optint st = some s ∧
      Buddy.Reach opt.totalPages s ∧ ∀ p, p ∈ s.freePages ↔
        p < opt.totalPages ∧ ∀ k ≤ (p + opt.slots) / 1024, kmalloc k ≠ 0 := by
  have hlt : ∀ {p : ℕ}, p < opt.totalPages → p + opt.slots < 2 ^ 31 := fun hp => by omega
  obtain ⟨s, hs, hreach, hfree⟩ := Buddy.startup_spec opt.totalPages fun i =>
    (Layout.localAddr opt i).any fun a => Layout.translateUseraddr
      (regisBigspace kmalloc opt.localPageCount bufferpages).1 a ≠ 0
  refine ⟨s, ?_, hreach, fun p => ?_⟩
  · -- the command is read back, and the layout built from what it says
    obtain ⟨st', hst', ht, hw', hr⟩ : ∃ st', Command.krpingWriteProc pton
        (Command.text (Command.ofOptions opt name) ++ [c]) optarg optint st = some st' ∧
        st'.totalPages = opt.totalPages ∧ st'.writeOutBuff = opt.writeOut ∧
          st'.readInBuff = opt.readIn :=
      ⟨_, Command.krpingWriteProc_ofOptions opt hw hname hlen c optarg optint st, rfl, rfl, rfl⟩
    have hplaced : ∀ i < opt.totalPages, (Layout.localAddr opt i).isSome := by
      intro i hi
      rw [Layout.localAddr_eq (hlt hi)]
      rfl
    rw [boot, hst', Option.bind_eq_bind, Option.bind_some, optionsOf_eq rfl rfl ht hw' hr,
      Option.bind_eq_bind, Option.bind_some, Layout.initEnv, if_pos hplaced]
    exact hs
  · rw [hfree]
    apply and_congr_right
    intro hp
    rw [translateUseraddr_ne_zero (hlt hp), regisBigspace_apply (by omega)]

/-- Of three chunks the third cannot be had. -/
theorem boot_ofOptions_three : ∃ s,
    boot (fun i => if i = 2 then 0 else 4096) (fun _ _ => none) 2 3 (fun _ => 7)
        "total_pages=2000,writeOut_buff=32,readIn_buff=64,proc_name=redis\n".toList none 0
        (.start (fun _ _ => none) (Config.entry "10.0.0.".toList 1 2)) = some s ∧
      ∀ p, p ∈ s.freePages ↔ p < 1920 := by
  obtain ⟨s, hs, -, hfree⟩ := @boot_ofOptions (fun i => if i = 2 then 0 else 4096)
    ⟨2, 32, 64, 2000, 3, by decide, by decide⟩ (by decide) (by decide) (by decide) "redis".toList
    (by decide) (by decide) '\n' (fun _ _ => none) (fun _ => 7) none 0
    (.start (fun _ _ => none) (Config.entry "10.0.0.".toList 1 2))
  have htext : "total_pages=2000,writeOut_buff=32,readIn_buff=64,proc_name=redis\n".toList =
      Command.text (Command.ofOptions ⟨2, 32, 64, 2000, 3, by decide, by decide⟩
        "redis".toList) ++ ['\n'] := by decide
  refine ⟨s, ?_, fun p => (hfree p).trans ?_⟩
  · rw [htext]
    exact hs
  show p < 2000 ∧ (∀ k ≤ (p + 128) / 1024, (if k = 2 then 0 else 4096) ≠ 0) ↔ p < 1920
  constructor
  · rintro ⟨-, hall⟩
    by_contra hp
    exact hall 2 (by omega) (if_pos rfl)
  · intro hp
    refine ⟨by omega, fun k hk => ?_⟩
    rw [if_neg (by omega)]
    decide

end Pages

end Boot
end Comex
