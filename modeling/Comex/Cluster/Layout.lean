import Comex.Buddy.Startup

/-!
# The layout of a node's RDMA space

The write-out slots, the read-in slots and the buddy pages share one space of
4 MiB chunks.  The kernel places a page behind the slots, `COMEX_init` of the
RDMA module shifts what a peer reads and writes by a sum of its own, rounded up
to a chunk.  An `int` expression that overflows has no value; `uint64_t` wraps.

## Main definitions

* `Options` — the options of the module.
* `getWriteOutBuff`, `getReadInBuff`, `localAddr`, `remoteAddr` — where things are.
* `initEnv` — the pages `COMEX_init_ENV` leaves free.
* `Sound`, `Fits` — no two things overlap; the options for which this is so.

## Main results

* `sound_iff` — **the layout is sound just for the options that fit.**
-/

namespace Comex
namespace Layout

/-- `X86PageSize`. -/
def pageSize : ℕ := 4096

/-- `RPING_BUFSIZE`. -/
def bufSize : ℕ := 4 * 1024 * 1024

/-- The options of `krping.c`, the same on every node. -/
structure Options where
  /-- `CONF_totalCB`. -/
  nodes : ℕ
  writeOut : ℕ
  readIn : ℕ
  totalPages : ℕ
  /-- `CONF_localpagecount`, in chunks. -/
  localPageCount : ℕ
  readIn_lt : readIn < 2 ^ 31
  totalPages_lt : totalPages < 2 ^ 31

/-- The value of an `int` expression that is not negative. -/
def int (x : ℕ) : Option ℕ := if x < 2 ^ 31 then some x else none

/-- The value of a `uint64_t` expression. -/
def u64 (x : ℕ) : ℕ := x % 2 ^ 64

variable (opt : Options)

/-- `get_writeOut_buff`. -/
def getWriteOutBuff (nodeID slot : ℕ) : Option ℕ :=
  (int (nodeID * opt.writeOut)).map fun address => u64 (u64 (address + slot) * pageSize)

/-- `get_readIn_buff`. -/
def getReadInBuff (slot : ℕ) : Option ℕ :=
  (int (opt.writeOut * opt.nodes)).map fun address => u64 (u64 (address + slot) * pageSize)

/-- `remote_shift_offset` as `COMEX_init` computes it. -/
def remoteShiftOffset : Option ℕ :=
  (int (opt.writeOut * opt.nodes)).map fun pages =>
    let offset := u64 (pages + opt.readIn)
    let offset := offset >>> 10
    let offset := u64 (offset + 1)
    let offset := u64 (offset <<< 10)
    u64 (offset <<< 12)

/-- `offsetNO` of `COMEX_init_ENV`, `COMEX_move_to_COMEX` and `COMEX_read_from_local`. -/
def offsetNO (pageNO : ℕ) : Option ℕ := do
  let slots ← int (opt.writeOut * opt.nodes)
  let offset ← int (pageNO + slots)
  int (offset + opt.readIn)

/-- Where the node itself finds a page. -/
def localAddr (pageNO : ℕ) : Option ℕ :=
  (offsetNO opt pageNO).map fun offset => u64 (offset <<< 12)

/-- Where a `PAGE_WRTE` or `PAGE_READ` of a peer finds a page. -/
def remoteAddr (pageNO : ℕ) : Option ℕ :=
  (remoteShiftOffset opt).map fun shift => u64 (u64 (pageNO <<< 12) + shift)

/-- `translate_useraddr`, with the contents of `bufferpages[]` and of what follows it; 0
is `NULL`. -/
def translateUseraddr (bufferpages : ℕ → ℕ) (offset : ℕ) : ℕ :=
  if bufferpages (offset / bufSize) = 0 then 0
  else bufferpages (offset / bufSize) + offset % bufSize

/-- `COMEX_init_ENV`: `COMEX_offset_to_addr` only reports an offset outside the chunks. -/
def initEnv (bufferpages : ℕ → ℕ) : Option Buddy :=
  if ∀ i < opt.totalPages, (localAddr opt i).isSome then
    Buddy.startup opt.totalPages fun i =>
      (localAddr opt i).any fun a => translateUseraddr bufferpages a ≠ 0
  else none

/-! ### Soundness -/

/-- What has a place in the space. -/
inductive Object
  | writeOut (nodeID slot : ℕ)
  | readIn (slot : ℕ)
  | page (pageNO : ℕ)
  deriving DecidableEq

/-- The objects of a node. -/
def Object.Valid : Object → Prop
  | .writeOut nodeID slot => nodeID < opt.nodes ∧ slot < opt.writeOut
  | .readIn slot => slot < opt.readIn
  | .page pageNO => pageNO < opt.totalPages

/-- Where an object is accessed; a page by the node itself and by a peer. -/
def Object.addrs : Object → List (Option ℕ)
  | .writeOut nodeID slot => [getWriteOutBuff opt nodeID slot]
  | .readIn slot => [getReadInBuff opt slot]
  | .page pageNO => [localAddr opt pageNO, remoteAddr opt pageNO]

/-- No expression overflows, no two objects overlap, and free pages are in the chunks. -/
structure Sound : Prop where
  shift : (remoteShiftOffset opt).isSome
  placed : ∀ o : Object, o.Valid opt → ∀ a ∈ o.addrs opt, a.isSome
  apart : ∀ o o' : Object, o.Valid opt → o'.Valid opt → o ≠ o' →
    ∀ a a' : ℕ, some a ∈ o.addrs opt → some a' ∈ o'.addrs opt →
      a + pageSize ≤ a' ∨ a' + pageSize ≤ a
  inside : ∀ bufferpages : ℕ → ℕ, ∃ s, initEnv opt bufferpages = some s ∧
    ∀ p ∈ s.freePages, ∀ a : ℕ, some a ∈ (Object.page p).addrs opt →
      a + pageSize ≤ opt.localPageCount * bufSize

/-- The pages before the buddy pages. -/
def Options.slots : ℕ := opt.writeOut * opt.nodes + opt.readIn

/-- The slots leave room in the chunk they end in for every page, and the chunk after it
has the pages again. -/
def Fits : Prop :=
  opt.writeOut * opt.nodes < 2 ^ 31 ∧ (opt.totalPages = 0 ∨
    opt.totalPages + opt.slots ≤ 2 ^ 31 ∧ opt.totalPages ≤ 1024 - opt.slots % 1024 ∧
      opt.totalPages + 1024 * (opt.slots / 1024 + 1) ≤ 1024 * opt.localPageCount)

/-! ### The addresses in pages -/

section Pages

variable {opt}

theorem int_eq_some {x : ℕ} (h : x < 2 ^ 31) : int x = some x := if_pos h

theorem u64_eq {x : ℕ} (h : x < 2 ^ 64) : u64 x = x := Nat.mod_eq_of_lt h

/-- A page number that fits turns into a byte address without wrapping. -/
theorem u64_pages {x : ℕ} (h : x < 2 ^ 52) : u64 (x * pageSize) = x * pageSize :=
  u64_eq (by unfold pageSize; omega)

theorem getWriteOutBuff_eq (h : opt.writeOut * opt.nodes < 2 ^ 31) {nodeID slot : ℕ}
    (hn : nodeID < opt.nodes) (hs : slot < opt.writeOut) :
    nodeID * opt.writeOut + slot < opt.writeOut * opt.nodes ∧
      getWriteOutBuff opt nodeID slot = some ((nodeID * opt.writeOut + slot) * pageSize) := by
  have hlt : nodeID * opt.writeOut + slot < opt.writeOut * opt.nodes :=
    calc nodeID * opt.writeOut + slot < nodeID * opt.writeOut + opt.writeOut := by omega
      _ = (nodeID + 1) * opt.writeOut := (Nat.succ_mul nodeID opt.writeOut).symm
      _ ≤ opt.nodes * opt.writeOut := Nat.mul_le_mul_right _ hn
      _ = opt.writeOut * opt.nodes := Nat.mul_comm _ _
  refine ⟨hlt, ?_⟩
  rw [getWriteOutBuff, int_eq_some (by omega), Option.map_some, u64_eq (x := _ + slot) (by omega),
    u64_pages (by omega)]

theorem getReadInBuff_eq (h : opt.writeOut * opt.nodes < 2 ^ 31) {slot : ℕ}
    (hs : slot < opt.readIn) :
    getReadInBuff opt slot = some ((opt.writeOut * opt.nodes + slot) * pageSize) := by
  have hr := opt.readIn_lt
  rw [getReadInBuff, int_eq_some h, Option.map_some, u64_eq (x := _ + slot) (by omega),
    u64_pages (by omega)]

theorem remoteShiftOffset_eq (h : opt.writeOut * opt.nodes < 2 ^ 31) :
    remoteShiftOffset opt = some (1024 * (opt.slots / 1024 + 1) * pageSize) := by
  have hr := opt.readIn_lt
  rw [remoteShiftOffset, int_eq_some h, Option.map_some]
  simp only [Nat.shiftRight_eq_div_pow, Nat.shiftLeft_eq]
  change some (u64 (u64 (u64 (u64 opt.slots / 2 ^ 10 + 1) * 2 ^ 10) * 2 ^ 12)) = _
  have hslots : opt.slots < 2 ^ 32 := by
    unfold Options.slots
    omega
  rw [u64_eq (x := opt.slots) (by omega), u64_eq (x := _ + 1) (by omega),
    u64_eq (x := _ * 2 ^ 10) (by omega), u64_eq (by omega)]
  apply congrArg some
  unfold pageSize
  omega

theorem remoteAddr_eq (h : opt.writeOut * opt.nodes < 2 ^ 31) {p : ℕ} (hp : p < opt.totalPages) :
    remoteAddr opt p = some ((p + 1024 * (opt.slots / 1024 + 1)) * pageSize) := by
  have hr := opt.readIn_lt
  have ht := opt.totalPages_lt
  have hslots : opt.slots < 2 ^ 32 := by
    unfold Options.slots
    omega
  rw [remoteAddr, remoteShiftOffset_eq h, Option.map_some, Nat.shiftLeft_eq]
  change some (u64 (u64 (p * pageSize) + _)) = _
  rw [u64_pages (x := p) (by omega), ← Nat.add_mul, u64_pages (by omega)]

theorem localAddr_eq {p : ℕ} (h : p + opt.slots < 2 ^ 31) :
    localAddr opt p = some ((p + opt.slots) * pageSize) := by
  unfold Options.slots at h
  rw [localAddr, offsetNO, int_eq_some (by omega), Option.bind_eq_bind, Option.bind_some,
    int_eq_some (by omega), Option.bind_some, int_eq_some (by omega), Option.map_some,
    Nat.shiftLeft_eq]
  change some (u64 (_ * pageSize)) = _
  rw [u64_pages (by omega), Options.slots, Nat.add_assoc]

theorem lt_of_localAddr_isSome {p : ℕ} (h : (localAddr opt p).isSome) :
    p + opt.slots < 2 ^ 31 := by
  rw [localAddr, Option.isSome_map, Option.isSome_iff_exists] at h
  obtain ⟨a, h⟩ := h
  simp only [offsetNO, int, Option.bind_eq_bind, Option.bind_eq_some_iff,
    Option.ite_none_right_eq_some] at h
  obtain ⟨x, ⟨h1, hx⟩, y, ⟨h2, hy⟩, h3, -⟩ := h
  rw [← Option.some.inj hy, ← Option.some.inj hx] at h3
  unfold Options.slots
  omega

end Pages

/-! ### The options that fit -/

/-- The pages of the space an object is at. -/
def Object.pages : Object → List ℕ
  | .writeOut nodeID slot => [nodeID * opt.writeOut + slot]
  | .readIn slot => [opt.writeOut * opt.nodes + slot]
  | .page pageNO => [pageNO + opt.slots, pageNO + 1024 * (opt.slots / 1024 + 1)]

section Fits

variable {opt}

theorem Fits.addrs_eq (h : Fits opt) {o : Object} (ho : o.Valid opt) :
    o.addrs opt = (o.pages opt).map fun i => some (i * pageSize) := by
  obtain ⟨hint, hfit⟩ := h
  cases o with
  | writeOut nodeID slot =>
    simp only [Object.addrs, Object.pages, (getWriteOutBuff_eq hint ho.1 ho.2).2, List.map_cons,
      List.map_nil]
  | readIn slot =>
    simp only [Object.addrs, Object.pages, getReadInBuff_eq hint ho, List.map_cons, List.map_nil]
  | page pageNO =>
    simp only [Object.Valid] at ho
    have hlt : pageNO + opt.slots < 2 ^ 31 := by omega
    simp only [Object.addrs, Object.pages, localAddr_eq hlt, remoteAddr_eq hint ho, List.map_cons,
      List.map_nil]

/-- The slots of two nodes are apart. -/
theorem writeOut_inj {nodeID nodeID' slot slot' : ℕ} (hs : slot < opt.writeOut)
    (hs' : slot' < opt.writeOut)
    (h : nodeID * opt.writeOut + slot = nodeID' * opt.writeOut + slot') :
    nodeID = nodeID' ∧ slot = slot' := by
  have hpos : 0 < opt.writeOut := by omega
  have hdiv : ∀ {n s : ℕ}, s < opt.writeOut → (n * opt.writeOut + s) / opt.writeOut = n :=
    fun {n s} hlt => by
      rw [Nat.add_comm, Nat.add_mul_div_right _ _ hpos, Nat.div_eq_of_lt hlt, Nat.zero_add]
  have hnode : nodeID = nodeID' := by rw [← hdiv (n := nodeID) hs, h, hdiv hs']
  subst hnode
  exact ⟨rfl, by omega⟩

/-- Two objects share no page. -/
theorem Fits.pages_ne (h : Fits opt) {o o' : Object} (ho : o.Valid opt) (ho' : o'.Valid opt)
    (hne : o ≠ o') {i j : ℕ} (hi : i ∈ o.pages opt) (hj : j ∈ o'.pages opt) : i ≠ j := by
  obtain ⟨hint, hfit⟩ := h
  have hslots : opt.slots = opt.writeOut * opt.nodes + opt.readIn := rfl
  rintro rfl
  cases o with
  | writeOut n s =>
    have hlt := (getWriteOutBuff_eq hint ho.1 ho.2).1
    simp only [Object.pages, List.mem_singleton] at hi
    cases o' with
    | writeOut n' s' =>
      simp only [Object.pages, List.mem_singleton] at hj
      obtain ⟨rfl, rfl⟩ := writeOut_inj ho.2 ho'.2 (hi.symm.trans hj)
      exact hne rfl
    | readIn s' =>
      simp only [Object.pages, List.mem_singleton] at hj
      omega
    | page p' =>
      simp only [Object.pages, List.mem_cons, List.not_mem_nil, or_false] at hj
      omega
  | readIn s =>
    simp only [Object.Valid] at ho
    simp only [Object.pages, List.mem_singleton] at hi
    cases o' with
    | writeOut n' s' =>
      have hlt := (getWriteOutBuff_eq hint ho'.1 ho'.2).1
      simp only [Object.pages, List.mem_singleton] at hj
      omega
    | readIn s' =>
      simp only [Object.pages, List.mem_singleton] at hj
      exact hne (congrArg Object.readIn (by omega))
    | page p' =>
      simp only [Object.pages, List.mem_cons, List.not_mem_nil, or_false] at hj
      omega
  | page p =>
    simp only [Object.Valid] at ho
    simp only [Object.pages, List.mem_cons, List.not_mem_nil, or_false] at hi
    cases o' with
    | writeOut n' s' =>
      have hlt := (getWriteOutBuff_eq hint ho'.1 ho'.2).1
      simp only [Object.pages, List.mem_singleton] at hj
      omega
    | readIn s' =>
      simp only [Object.Valid] at ho'
      simp only [Object.pages, List.mem_singleton] at hj
      omega
    | page p' =>
      simp only [Object.Valid] at ho'
      simp only [Object.pages, List.mem_cons, List.not_mem_nil, or_false] at hj
      -- a local and a remote place are further apart than there are pages
      exact hne (congrArg Object.page (by omega))

/-- Every page is in the chunks, wherever it is accessed. -/
theorem Fits.inside (h : Fits opt) {p i : ℕ} (hp : p < opt.totalPages)
    (hi : i ∈ (Object.page p).pages opt) : i < 1024 * opt.localPageCount := by
  obtain ⟨-, hfit⟩ := h
  simp only [Object.pages, List.mem_cons, List.not_mem_nil, or_false] at hi
  omega

theorem Fits.sound (h : Fits opt) : Sound opt where
  shift := by
    rw [remoteShiftOffset_eq h.1]
    rfl
  placed := by
    intro o ho a ha
    rw [h.addrs_eq ho, List.mem_map] at ha
    obtain ⟨i, -, rfl⟩ := ha
    rfl
  apart := by
    intro o o' ho ho' hne a a' ha ha'
    rw [h.addrs_eq ho, List.mem_map] at ha
    rw [h.addrs_eq ho', List.mem_map] at ha'
    obtain ⟨i, hi, hia⟩ := ha
    obtain ⟨j, hj, hja⟩ := ha'
    have hij := h.pages_ne ho ho' hne hi hj
    rw [← Option.some.inj hia, ← Option.some.inj hja]
    unfold pageSize
    omega
  inside := by
    intro bufferpages
    obtain ⟨s, hs, -, hfree⟩ := Buddy.startup_spec opt.totalPages fun i =>
      (localAddr opt i).any fun a => translateUseraddr bufferpages a ≠ 0
    refine ⟨s, ?_, fun p hp a ha => ?_⟩
    · rw [initEnv, if_pos, hs]
      intro i hi
      have hfit := h.2
      rw [localAddr_eq (by omega)]
      rfl
    · have hlt := ((hfree p).mp hp).1
      rw [h.addrs_eq (o := .page p) hlt, List.mem_map] at ha
      obtain ⟨i, hi, hia⟩ := ha
      have := h.inside hlt hi
      rw [← Option.some.inj hia]
      unfold pageSize bufSize
      omega

theorem Sound.fits (h : Sound opt) : Fits opt := by
  have hint : opt.writeOut * opt.nodes < 2 ^ 31 := by
    have hshift := h.shift
    rw [remoteShiftOffset, Option.isSome_map, int] at hshift
    by_contra hover
    rw [if_neg hover] at hshift
    exact absurd hshift (by simp)
  refine ⟨hint, or_iff_not_imp_left.mpr fun hzero => ?_⟩
  have hslots : opt.slots = opt.writeOut * opt.nodes + opt.readIn := rfl
  -- the last page has a local place
  have hlast : opt.totalPages - 1 + opt.slots < 2 ^ 31 :=
    lt_of_localAddr_isSome (h.placed (.page (opt.totalPages - 1))
      (show opt.totalPages - 1 < opt.totalPages by omega) _ (List.mem_cons_self ..))
  refine ⟨by omega, ?_, ?_⟩
  · by_contra hcross
    -- the page that lies where a peer finds page 0
    have hp : 1024 - opt.slots % 1024 < opt.totalPages := by omega
    have hlocal : localAddr opt (1024 - opt.slots % 1024) =
        some ((1024 - opt.slots % 1024 + opt.slots) * pageSize) := localAddr_eq (by omega)
    have hremote := remoteAddr_eq hint (p := 0) (by omega)
    have happ := h.apart (.page (1024 - opt.slots % 1024)) (.page 0) hp
      (show 0 < opt.totalPages by omega) (fun hc => by
        have := Object.page.inj hc
        omega) _ _ (List.mem_cons.mpr (Or.inl hlocal.symm))
      (List.mem_cons_of_mem _ (List.mem_cons.mpr (Or.inl hremote.symm)))
    unfold pageSize at happ
    omega
  · -- with memory everywhere the last page is free
    obtain ⟨s, hs, hin⟩ := h.inside fun _ => 1
    obtain ⟨s', hs', -, hfree⟩ := Buddy.startup_spec opt.totalPages fun i =>
      (localAddr opt i).any fun a => translateUseraddr (fun _ => 1) a ≠ 0
    rw [initEnv, if_pos fun i hi => by rw [localAddr_eq (by omega)]; rfl, hs',
      Option.some.injEq] at hs
    subst hs
    have hp : opt.totalPages - 1 < opt.totalPages := by omega
    have hmem : opt.totalPages - 1 ∈ s'.freePages := by
      refine (hfree _).mpr ⟨hp, ?_⟩
      rw [localAddr_eq hlast]
      simp [translateUseraddr]
    have hend := hin _ hmem _ (List.mem_cons_of_mem _
      (List.mem_cons.mpr (Or.inl (remoteAddr_eq hint hp).symm)))
    simp only [pageSize, bufSize] at hend
    generalize opt.slots / 1024 + 1 = chunks at hend ⊢
    omega

end Fits

/-- **No two objects of a node overlap, and every free page is in its memory, just when the
options fit.** -/
theorem sound_iff (opt : Options) : Sound opt ↔ Fits opt := ⟨Sound.fits, Fits.sound⟩

/-- One node, 16 slots each way and 2000 pages in 100 chunks. -/
def oneNode : Options where
  nodes := 1
  writeOut := 16
  readIn := 16
  totalPages := 2000
  localPageCount := 100
  readIn_lt := by decide
  totalPages_lt := by decide

/-- **The two formulas disagree**: page 992 is, for its node, where a peer finds page 0. -/
theorem not_sound_oneNode : (Object.page 992).Valid oneNode ∧ (Object.page 0).Valid oneNode ∧
    localAddr oneNode 992 = remoteAddr oneNode 0 ∧ ¬ Sound oneNode := by
  have hvalid : (992 < 2000) ∧ 0 < 2000 := by decide
  refine ⟨hvalid.1, hvalid.2, rfl, fun h => ?_⟩
  have hcross := h.apart (.page 992) (.page 0) hvalid.1 hvalid.2 (by decide)
    (1024 * 4096) (1024 * 4096)
    (List.mem_cons.mpr (Or.inl rfl)) (List.mem_cons_of_mem _ (List.mem_cons.mpr (Or.inl rfl)))
  exact absurd hcross (by decide)

end Layout
end Comex
