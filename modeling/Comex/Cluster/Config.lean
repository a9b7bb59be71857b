import Comex.Cluster.Wire
import Comex.Lib.Separated
import Mathlib.Data.List.Range

/-!
# The configurations of a cluster's nodes

`gen_myconfig.py` writes `myconfig.h` for one node: for every other node a connection,
with the side that listens, and the address and port to meet at.  The nodes run it one
by one, and the cluster works because the files agree: every connection of every node
meets exactly one other, the one its peer has for it.

## Main definitions

* `isServerLine`, `allIPLines`, `allPortLines` — the text.
* `Entry`, `entry`, `slot` — what a node reads of it.
* `network`, `wiring` — the cluster of these configurations.

## Main results

* `isServerLine_eq`, `allIPLines_eq`, `allPortLines_eq` — the arrays are well formed.
* `met_iff_iff` — **every connection meets the one its peer has for it, and no other, just in
  clusters of at most 852 nodes.**
* `ports_fit_iff` — the ports are `uint16_t`s just for clusters of at most 99 nodes.
-/

namespace Comex
namespace Config

/-! ### The text -/

/-- `str` of a number. -/
def str (n : ℕ) : List Char := Nat.toDigits 10 n

/-- The nodes a node has connections to, in the order of the loops. -/
def others (total node : ℕ) : List ℕ := (List.range' 1 total).filter fun i => i ≠ node

/-- The digit of `CONF_isServer`. -/
def flag (node i : ℕ) : List Char := if node < i then "1".toList else "0".toList

/-- The address of `CONF_allIP`, which is that of the node with the smaller ID. -/
def ipText (subnet : List Char) (node i : ℕ) : List Char :=
  if node < i then "\"".toList ++ subnet ++ str node ++ "\"".toList
  else "\"".toList ++ subnet ++ str i ++ "\"".toList

/-- The port of `CONF_allPort`. -/
def portText (node i : ℕ) : List Char :=
  if node < 10 ∧ i < 10 then
    if node < i then "52".toList ++ str node ++ str i else "52".toList ++ str i ++ str node
  else
    if node < i then "4".toList ++ str node ++ str i else "4".toList ++ str i ++ str node

/-- `line4`. -/
def isServerLine (total node : ℕ) : List Char :=
  let line := (List.range' 1 total).foldl (fun line i =>
    line ++ if i ≠ node then flag node i ++ if i < total then ", ".toList else [] else [])
    "int CONF_isServer[] = \x7b ".toList
  let line := if node = total then line.dropLast.dropLast else line
  line ++ " \x7d;".toList

/-- The `print`s of one of the other arrays; a `print` after one that ends in a comma
starts with a blank. -/
def printed (total node : ℕ) (title : List Char) (item : ℕ → List Char) (sep : List Char) :
    List Char :=
  (List.range' 1 total).foldl (fun text i =>
    text ++ if i ≠ node then
      item i ++
        if node = total ∧ i = total - 1 then " \x7d;\n".toList
        else if i < total then sep else " \x7d;\n".toList
    else []) title

/-- `CONF_allIP`. -/
def allIPLines (subnet : List Char) (total node : ℕ) : List Char :=
  printed total node "char *CONF_allIP[] = \x7b ".toList (ipText subnet node) ",\n".toList

/-- `CONF_allPort`. -/
def allPortLines (total node : ℕ) : List Char :=
  printed total node "int CONF_allPort[] = \x7b ".toList (portText node) ", ".toList

section Text

variable {total node : ℕ}

theorem mem_others {i : ℕ} : i ∈ others total node ↔ 1 ≤ i ∧ i ≤ total ∧ i ≠ node := by
  simp only [others, List.mem_filter, List.mem_range'_1, decide_eq_true_eq, ne_eq]
  omega

/-- The nodes before the own one, then those behind it. -/
theorem others_eq (h1 : 1 ≤ node) (h2 : node ≤ total) :
    others total node = List.range' 1 (node - 1) ++ List.range' (node + 1) (total - node) := by
  have hsplit : List.range' 1 total =
      List.range' 1 (node - 1) ++ (node :: List.range' (node + 1) (total - node)) := by
    rw [show node :: List.range' (node + 1) (total - node) =
      List.range' (1 + (node - 1)) (total - node + 1) by
        rw [List.range'_succ, Nat.add_sub_cancel' h1], List.range'_append_1]
    congr 1
    omega
  have hkeep : ∀ l : List ℕ, node ∉ l → (l.filter fun i => decide (i ≠ node)) = l := by
    intro l hl
    apply List.filter_eq_self.mpr
    intro i hi
    rw [decide_eq_true_eq]
    rintro rfl
    exact hl hi
  rw [others, hsplit, List.filter_append, hkeep _ (by rw [List.mem_range'_1]; omega),
    List.filter_cons]
  simp only [ne_eq, not_true_eq_false, decide_false, Bool.false_eq_true, if_false]
  exact congrArg _ (hkeep _ (by rw [List.mem_range'_1]; omega))

/-- The last of the other nodes, and those before it. -/
theorem exists_last (h1 : 1 ≤ node) (h2 : node ≤ total) (hn : 2 ≤ total) :
    ∃ init last, others total node = init ++ [last] ∧
      last = (if node = total then total - 1 else total) ∧ ∀ i ∈ init, i < last := by
  by_cases hnode : node = total
  · subst hnode
    refine ⟨List.range' 1 (node - 2), node - 1, ?_, (if_pos rfl).symm, fun i hi => ?_⟩
    · rw [others_eq h1 h2, Nat.sub_self, List.range'_zero, List.append_nil,
        show node - 1 = node - 2 + 1 by omega, List.range'_1_concat]
      congr 2
      omega
    · rw [List.mem_range'_1] at hi
      omega
  · refine ⟨List.range' 1 (node - 1) ++ List.range' (node + 1) (total - node - 1), total, ?_,
      (if_neg hnode).symm, fun i hi => ?_⟩
    · rw [others_eq h1 h2, List.append_assoc, show total - node = total - node - 1 + 1 by omega,
        List.range'_1_concat]
      congr 3
      omega
    · rcases List.mem_append.mp hi with hi | hi <;> rw [List.mem_range'_1] at hi <;> omega

/-- **`CONF_isServer` has one digit for every connection.**  The loop writes a comma behind every
digit of a node below the last one, and the script takes the last two characters off where the
node itself is the last. -/
theorem isServerLine_eq (h1 : 1 ≤ node) (h2 : node ≤ total) (hn : 2 ≤ total) :
    isServerLine total node = "int CONF_isServer[] = \x7b ".toList ++
      ", ".toList.intercalate ((others total node).map (flag node)) ++ " \x7d;".toList := by
  obtain ⟨init, last, hothers, hlast, hinit⟩ := exists_last h1 h2 hn
  have hmem : ∀ i ∈ init, i < total := by
    intro i hi
    have := hinit i hi
    split at hlast <;> omega
  unfold isServerLine
  rw [List.foldl_append_eq_append, ← List.flatMap_def]
  have hloop : ((List.range' 1 total).flatMap fun i =>
      if i ≠ node then flag node i ++ if i < total then ", ".toList else [] else []) =
      ", ".toList.intercalate ((others total node).map (flag node)) ++
        if node = total then ", ".toList else [] := by
    have hfilter := Separated.flatMap_filter (List.range' 1 total) (fun i => decide (i ≠ node))
      fun i => flag node i ++ if i < total then ", ".toList else []
    simp only [decide_eq_true_eq] at hfilter
    rw [hfilter]
    change (others total node).flatMap _ = _
    rw [hothers]
    refine Separated.flatMap_terminated ?_ init fun i hi => ?_
    · by_cases hnode : node = total
      · rw [if_pos hnode] at hlast
        rw [if_pos hnode, if_pos (by omega)]
      · rw [if_neg hnode] at hlast
        rw [if_neg hnode, if_neg (by omega)]
    · rw [if_pos (hmem i hi)]
  rw [hloop]
  simp only
  -- the comma behind the last digit is there just if the node is the last one
  by_cases hnode : node = total
  · rw [if_pos hnode, if_pos hnode, ← List.append_assoc]
    rw [List.dropLast_append_of_ne_nil (by decide), show ", ".toList.dropLast = [','] by decide,
      List.dropLast_concat]
  · rw [if_neg hnode, if_neg hnode, List.append_nil]

/-- **The other arrays have one item for every connection.**  Their loop closes the array behind
the last item itself, which is that of the last node or, for the last node, of the one before. -/
theorem printed_eq (h1 : 1 ≤ node) (h2 : node ≤ total) (hn : 2 ≤ total) (title : List Char)
    (item : ℕ → List Char) (sep : List Char) :
    printed total node title item sep = title ++
      sep.intercalate ((others total node).map item) ++ " \x7d;\n".toList := by
  obtain ⟨init, last, hothers, hlast, hinit⟩ := exists_last h1 h2 hn
  unfold printed
  rw [List.foldl_append_eq_append, ← List.flatMap_def, List.append_assoc]
  congr 1
  have hfilter := Separated.flatMap_filter (List.range' 1 total) (fun i => decide (i ≠ node))
    fun i => item i ++
      if node = total ∧ i = total - 1 then " \x7d;\n".toList
      else if i < total then sep else " \x7d;\n".toList
  simp only [decide_eq_true_eq] at hfilter
  rw [hfilter]
  change (others total node).flatMap _ = _
  rw [hothers]
  refine Separated.flatMap_terminated ?_ init fun i hi => ?_
  · -- the end of the array stands behind the last item
    by_cases hnode : node = total
    · rw [if_pos hnode] at hlast
      rw [if_pos ⟨hnode, hlast⟩]
    · rw [if_neg hnode] at hlast
      rw [if_neg fun hc => hnode hc.1, if_neg (by omega)]
  · have hlt := hinit i hi
    by_cases hnode : node = total
    · rw [if_pos hnode] at hlast
      rw [if_neg (by omega), if_pos (by omega)]
    · rw [if_neg hnode] at hlast
      rw [if_neg fun hc => hnode hc.1, if_pos (by omega)]

/-- **The text is three well-formed arrays with one element for every connection**, in the
order of the other nodes. -/
theorem text_eq (h1 : 1 ≤ node) (h2 : node ≤ total) (hn : 2 ≤ total) (subnet : List Char) :
    isServerLine total node = "int CONF_isServer[] = \x7b ".toList ++
        ", ".toList.intercalate ((others total node).map (flag node)) ++ " \x7d;".toList ∧
      allIPLines subnet total node = "char *CONF_allIP[] = \x7b ".toList ++
        ",\n".toList.intercalate ((others total node).map (ipText subnet node)) ++
          " \x7d;\n".toList ∧
      allPortLines total node = "int CONF_allPort[] = \x7b ".toList ++
        ", ".toList.intercalate ((others total node).map (portText node)) ++ " \x7d;\n".toList ∧
      (others total node).length = total - 1 := by
  refine ⟨isServerLine_eq h1 h2 hn, printed_eq h1 h2 hn _ _ _, printed_eq h1 h2 hn _ _ _, ?_⟩
  rw [others_eq h1 h2, List.length_append, List.length_range', List.length_range']
  omega

end Text

/-- The file of the last of three nodes. -/
theorem text_eq_three : isServerLine 3 3 = "int CONF_isServer[] = \x7b 0, 0 \x7d;".toList ∧
    allPortLines 3 3 = "int CONF_allPort[] = \x7b 5213, 5223 \x7d;\n".toList := by
  obtain ⟨h1, -, h3, -⟩ := text_eq (show 1 ≤ 3 by decide) (Nat.le_refl 3) (by decide)
    "192.168.0.".toList
  exact ⟨h1.trans (by decide), h3.trans (by decide)⟩

/-! ### Which connections meet -/

/-- What a node knows of one of its connections. -/
structure Entry where
  server : Bool
  /-- `CONF_allIP`, with its quotes; whether it is the address of a host is up to the subnet. -/
  ip : List Char
  /-- `cb->port`, a `uint16_t`. -/
  port : ℕ
  deriving DecidableEq, Repr

/-- The element of the three arrays for node `i`. -/
def entry (subnet : List Char) (node i : ℕ) : Entry where
  server := node < i
  ip := ipText subnet node i
  port := Nat.ofDigitChars 10 (portText node i) 0 % 2 ^ 16

/-- The connections of a node. -/
def slot (subnet : List Char) (total node k : ℕ) : Option Entry :=
  (others total node)[k]?.map (entry subnet node)

/-- One side listens where the other connects to. -/
def Meets (e e' : Entry) : Prop := e.server ≠ e'.server ∧ e.ip = e'.ip ∧ e.port = e'.port

section Meet

variable {subnet : List Char} {total a b a' b' : ℕ}

theorem ofDigitChars_append_str (text : List Char) (n : ℕ) :
    Nat.ofDigitChars 10 (text ++ str n) 0 =
      10 ^ (str n).length * Nat.ofDigitChars 10 text 0 + n := by
  rw [Nat.ofDigitChars_append, Nat.ofDigitChars_eq_ofDigitChars_zero, str,
    Nat.ofDigitChars_ten_toDigits]

theorem length_str {n : ℕ} (h : n < 1000) :
    (str n).length = if n < 10 then 1 else if n < 100 then 2 else 3 := by
  have hpos : 0 < (str n).length := Nat.length_toDigits_pos
  have h1 : (str n).length ≤ 1 ↔ n < 10 ^ 1 := Nat.length_toDigits_le_iff (by decide) (by decide)
  have h2 : (str n).length ≤ 2 ↔ n < 10 ^ 2 := Nat.length_toDigits_le_iff (by decide) (by decide)
  have h3 : (str n).length ≤ 3 ↔ n < 10 ^ 3 := Nat.length_toDigits_le_iff (by decide) (by decide)
  split
  · omega
  · split <;> omega

theorem str_inj {m n : ℕ} (h : str m = str n) : m = n := by
  have := congrArg (fun text => Nat.ofDigitChars 10 text 0) h
  simpa only [str, Nat.ofDigitChars_ten_toDigits] using this

/-- The port by the smaller and the larger ID. -/
theorem portText_eq (a b : ℕ) : portText a b =
    (if a < 10 ∧ b < 10 then "52".toList else "4".toList) ++ str (min a b) ++ str (max a b) := by
  unfold portText
  by_cases hab : a < b
  · rw [min_eq_left hab.le, max_eq_right hab.le]
    simp only [if_pos hab]
    split <;> rfl
  · rw [min_eq_right (Nat.le_of_not_lt hab), max_eq_left (Nat.le_of_not_lt hab)]
    simp only [if_neg hab]
    split <;> rfl

theorem ipText_eq (subnet : List Char) (a b : ℕ) :
    ipText subnet a b = "\"".toList ++ subnet ++ str (min a b) ++ "\"".toList := by
  unfold ipText
  by_cases hab : a < b
  · rw [min_eq_left hab.le, if_pos hab]
  · rw [min_eq_right (Nat.le_of_not_lt hab), if_neg hab]

/-- The number of the port of two nodes of at most three digits. -/
def port (m n : ℕ) : ℕ :=
  if n < 10 then 5200 + 10 * m + n
  else if n < 100 then
    if m < 10 then 4000 + 100 * m + n else 40000 + 100 * m + n
  else if m < 10 then 40000 + 1000 * m + n
  else if m < 100 then 400000 + 1000 * m + n
  else 4000000 + 1000 * m + n

theorem port_lt {m n : ℕ} (hmn : m ≤ n) (hn : n < 100) : port m n < 2 ^ 16 := by
  unfold port
  rw [if_pos hn]
  split
  · omega
  · split <;> omega

/-- How many digits the two have. -/
theorem port_cases {m n : ℕ} (hmn : m < n) :
    (m < 10 ∧ (n < 10 ∧ port m n = 5200 + 10 * m + n ∨
        10 ≤ n ∧ n < 100 ∧ port m n = 4000 + 100 * m + n ∨
        100 ≤ n ∧ port m n = 40000 + 1000 * m + n)) ∨
      (10 ≤ m ∧ m < 100 ∧ (n < 100 ∧ port m n = 40000 + 100 * m + n ∨
        100 ≤ n ∧ port m n = 400000 + 1000 * m + n)) ∨
      (100 ≤ m ∧ port m n = 4000000 + 1000 * m + n) := by
  unfold port
  split
  · omega
  · split
    · split <;> omega
    · split
      · omega
      · split <;> omega

/-- The digits of a port, read as a number: the digits of the larger ID shift those of the
smaller, and these the `52` or `4` in front. -/
theorem ofDigitChars_portText (ha : a < 1000) (hb : b < 1000) :
    Nat.ofDigitChars 10 (portText a b) 0 = port (min a b) (max a b) := by
  have h52 : Nat.ofDigitChars 10 "52".toList 0 = 52 := by decide
  have h4 : Nat.ofDigitChars 10 "4".toList 0 = 4 := by decide
  have hmin : min a b < 1000 := by omega
  have hmax : max a b < 1000 := by omega
  have hle : min a b ≤ max a b := by omega
  have hcond : (a < 10 ∧ b < 10) ↔ max a b < 10 := by omega
  rw [portText_eq, ofDigitChars_append_str, ofDigitChars_append_str, length_str hmin,
    length_str hmax]
  simp only [hcond]
  generalize min a b = m at *
  generalize max a b = n at *
  unfold port
  -- by the number of digits: of both, then of the larger ID, then of the smaller
  by_cases h10 : n < 10
  · rw [if_pos h10, if_pos (show m < 10 by omega), if_pos h10, if_pos h10, h52]
    omega
  rw [if_neg h10, if_neg h10, if_neg h10, h4]
  by_cases h100 : n < 100
  · rw [if_pos h100, if_pos h100, if_pos (show m < 100 by omega)]
    split <;> omega
  · rw [if_neg h100, if_neg h100]
    by_cases hm : m < 10
    · rw [if_pos hm, if_pos hm]
      omega
    · rw [if_neg hm, if_neg hm]
      split <;> omega

/-- The numbers of three digits come round six or seven times, and meet the others at 853. -/
theorem wrapped_ne {m n n' : ℕ} (hm : m < 100) (hmn : m < n) (hn : n < 100) (h100 : 100 ≤ n')
    (hn' : n' ≤ 852) : (40000 + 100 * m + n) % 2 ^ 16 ≠ (400000 + 1000 * m + n') % 2 ^ 16 := by
  rw [Nat.mod_eq_of_lt (show 40000 + 100 * m + n < 2 ^ 16 by omega)]
  intro h
  have hdiv := Nat.div_add_mod (400000 + 1000 * m + n') (2 ^ 16)
  have hq : (400000 + 1000 * m + n') / 2 ^ 16 = 6 ∨ (400000 + 1000 * m + n') / 2 ^ 16 = 7 := by
    omega
  rw [← h] at hdiv
  rcases hq with hq | hq <;> rw [hq] at hdiv <;> omega

/-- A port of a listening node tells who is to connect, as long as the `uint16_t`s of a
node of two digits do not come round to one another. -/
theorem port_inj {m n n' : ℕ} (hmn : m < n) (hmn' : m < n') (hn : n ≤ 852) (hn' : n' ≤ 852)
    (h : port m n % 2 ^ 16 = port m n' % 2 ^ 16) : n = n' := by
  rcases port_cases hmn with ⟨hm, hp⟩ | ⟨h10, hm, ⟨hlt, hp⟩ | ⟨hlt, hp⟩⟩ | ⟨hm, hp⟩
  · have hp' := port_cases hmn'
    rw [Nat.mod_eq_of_lt (by omega), Nat.mod_eq_of_lt (by omega)] at h
    omega
  · rcases port_cases hmn' with ⟨hm', -⟩ | ⟨-, -, ⟨hlt', hp'⟩ | ⟨hlt', hp'⟩⟩ | ⟨hm', -⟩
    · omega
    · omega
    · rw [hp, hp'] at h
      exact absurd h (wrapped_ne hm hmn hlt hlt' hn')
    · omega
  · rcases port_cases hmn' with ⟨hm', -⟩ | ⟨-, -, ⟨hlt', hp'⟩ | ⟨hlt', hp'⟩⟩ | ⟨hm', -⟩
    · omega
    · rw [hp, hp'] at h
      exact absurd h.symm (wrapped_ne hm hmn' hlt' hlt hn)
    · omega
    · omega
  · have hp' := port_cases hmn'
    omega

/-- **Two connections meet when each is to the node of the other.** -/
theorem meets_iff (ha : a ≤ 852) (hb : b ≤ 852) (ha' : a' ≤ 852) (hb' : b' ≤ 852) (hab : a ≠ b)
    (hab' : a' ≠ b') : Meets (entry subnet a b) (entry subnet a' b') ↔ a' = b ∧ b' = a := by
  have hport : ∀ {x y : ℕ}, x ≤ 852 → y ≤ 852 →
      (entry subnet x y).port = port (min x y) (max x y) % 2 ^ 16 := fun {x y} hx hy => by
    show Nat.ofDigitChars 10 (portText x y) 0 % 2 ^ 16 = _
    rw [ofDigitChars_portText (by omega) (by omega)]
  constructor
  · rintro ⟨hserver, hip, hp⟩
    have hmin : min a b = min a' b' := by
      simp only [entry, ipText_eq] at hip
      exact str_inj (List.append_cancel_left (List.append_cancel_right hip))
    rw [hport ha hb, hport ha' hb', hmin] at hp
    have hmax := port_inj (by omega) (by omega) (by omega) (by omega) hp
    have hside : ¬ (a < b ↔ a' < b') := by simpa [entry] using hserver
    omega
  · rintro ⟨rfl, rfl⟩
    refine ⟨?_, ?_, ?_⟩
    · simp only [entry, ne_eq, decide_eq_decide]
      omega
    · simp only [entry, ipText_eq, min_comm]
    · rw [hport ha hb, hport hb ha, min_comm, max_comm]

theorem others_nodup (total node : ℕ) : (others total node).Nodup :=
  List.Nodup.filter _ List.nodup_range'

theorem getElem?_others {node k i : ℕ} (h : (others total node)[k]? = some i) :
    1 ≤ i ∧ i ≤ total ∧ i ≠ node := mem_others.mp (List.mem_of_getElem? h)

/-- The connections of the cluster that one of node `node` meets. -/
def Met (subnet : List Char) (total node k : ℕ) (x : ℕ × ℕ) : Prop :=
  (1 ≤ x.1 ∧ x.1 ≤ total) ∧ ∃ e e', slot subnet total node k = some e ∧
    slot subnet total x.1 x.2 = some e' ∧ Meets e e'

theorem slot_eq {node k i : ℕ} (h : (others total node)[k]? = some i) :
    slot subnet total node k = some (entry subnet node i) := by rw [slot, h, Option.map_some]

/-- Up to 852 nodes a connection meets the one its peer has for it, and no other. -/
theorem exists_met_iff (ht : total ≤ 852) {node k i : ℕ} (h1 : 1 ≤ node) (h2 : node ≤ total)
    (hk : (others total node)[k]? = some i) :
    ∃ l, (others total i)[l]? = some node ∧ ∀ x, Met subnet total node k x ↔ x = (i, l) := by
  obtain ⟨hi1, hi2, hne⟩ := getElem?_others hk
  have hmem : node ∈ others total i := mem_others.mpr ⟨h1, h2, hne.symm⟩
  obtain ⟨l, hl⟩ := List.mem_iff_getElem?.mp hmem
  refine ⟨l, hl, fun x => ⟨?_, ?_⟩⟩
  · obtain ⟨j, m⟩ := x
    rintro ⟨⟨hj1, hj2⟩, e, e', he, he', hmeets⟩
    rw [slot_eq hk, Option.some.injEq] at he
    subst he
    obtain ⟨b, hb, rfl⟩ := Option.map_eq_some_iff.mp he'
    obtain ⟨hb1, hb2, hbj⟩ := getElem?_others hb
    simp only at hj1 hj2 hb hbj
    obtain ⟨rfl, rfl⟩ := (meets_iff (by omega) (by omega) (by omega) (by omega)
      hne.symm hbj.symm).mp hmeets
    have hlt : m < (others total j).length := (List.getElem?_eq_some_iff.mp hb).1
    rw [(List.getElem?_inj hlt (others_nodup total j)).mp (hb.trans hl.symm)]
  · rintro rfl
    refine ⟨⟨hi1, hi2⟩, _, _, slot_eq hk, slot_eq hl, ?_⟩
    exact (meets_iff (by omega) (by omega) (by omega) (by omega) hne.symm hne).mpr ⟨rfl, rfl⟩

/-- Node 853 connects to the port of node 36 that is meant for node 37: `436853` and `43637`
are the same `uint16_t`. -/
theorem meets_wrapped (subnet : List Char) :
    Meets (entry subnet 36 37) (entry subnet 853 36) := by
  refine ⟨?_, ?_, ?_⟩
  · show decide (36 < 37) ≠ decide (853 < 36)
    decide
  · simp only [entry, ipText_eq]
    rfl
  · show Nat.ofDigitChars 10 (portText 36 37) 0 % 2 ^ 16 =
      Nat.ofDigitChars 10 (portText 853 36) 0 % 2 ^ 16
    decide

/-- **Every connection of every node meets the one its peer has for it, and no other, just in
clusters of at most 852 nodes.**  Connection `k` of a node is to node `i`, and connection `l` of
node `i` is to the node. -/
theorem met_iff_iff (subnet : List Char) (total : ℕ) :
    (∀ node k i, 1 ≤ node → node ≤ total → (others total node)[k]? = some i →
      ∃ l, (others total i)[l]? = some node ∧ ∀ x, Met subnet total node k x ↔ x = (i, l)) ↔
      total ≤ 852 := by
  constructor
  · intro h
    by_contra hlarge
    have hmem : ∀ {x y : ℕ}, 1 ≤ y → y ≤ 853 → y ≠ x → ∃ k, (others total x)[k]? = some y :=
      fun h1 h2 hne => List.mem_iff_getElem?.mp (mem_others.mpr ⟨h1, by omega, hne⟩)
    obtain ⟨k, hk⟩ := @hmem 36 37 (by omega) (by omega) (by omega)
    obtain ⟨m, hm⟩ := @hmem 853 36 (by omega) (by omega) (by omega)
    -- the connection to node 37 meets one of node 853 as well
    obtain ⟨l, -, honly⟩ := h 36 k 37 (by omega) (by omega) hk
    have hwrong := (honly (853, m)).mp
      ⟨by omega, _, _, slot_eq hk, slot_eq hm, meets_wrapped subnet⟩
    exact absurd (congrArg Prod.fst hwrong) (show ¬ (853 : ℕ) = 37 by decide)
  · intro h node k i h1 h2 hk
    exact exists_met_iff h h1 h2 hk

/-- **The ports are `uint16_t`s just for clusters of at most 99 nodes.** -/
theorem ports_fit_iff (total : ℕ) :
    (∀ a b, 1 ≤ a → a ≤ total → 1 ≤ b → b ≤ total → a ≠ b →
      Nat.ofDigitChars 10 (portText a b) 0 < 2 ^ 16) ↔ total ≤ 99 := by
  constructor
  · intro h
    by_contra hlarge
    have := h 10 100 (by omega) (by omega) (by omega) (by omega) (by omega)
    exact absurd this (by decide)
  · intro h a b _ ha _ hb _
    rw [ofDigitChars_portText (by omega) (by omega)]
    exact port_lt (by omega) (by omega)

end Meet

/-! ### The cluster of these configurations -/

/-- `cbs[d]->remotenodeID`: the ID the peer has sent; the own one where there is no `cbs[d]`. -/
def remoteNodeID (total node : ℕ) (d : ℤ) : ℕ :=
  if 0 ≤ d then (others total node)[d.toNat]?.getD node else node

/-- `ID_to_CB`. -/
def idToCB (total node : ℕ) (nodeID : ℤ) : ℤ :=
  match (others total node).findIdx? fun i : ℕ => (i : ℤ) = nodeID with
  | some k => k
  | none => -1

section Network

variable {total : ℕ}

theorem remoteNodeID_bounds {node : ℕ} (h1 : 1 ≤ node) (h2 : node ≤ total) (d : ℤ) :
    1 ≤ remoteNodeID total node d ∧ remoteNodeID total node d ≤ total := by
  unfold remoteNodeID
  split
  · cases hd : (others total node)[d.toNat]? with
    | none => exact ⟨h1, h2⟩
    | some i => exact ⟨(getElem?_others hd).1, (getElem?_others hd).2.1⟩
  · exact ⟨h1, h2⟩

/-- `ID_to_CB` finds the connection to a node, and none to the own. -/
theorem remoteNodeID_idToCB {node i : ℕ} (h1 : 1 ≤ i) (h2 : i ≤ total) :
    remoteNodeID total node (idToCB total node i) = i ∨ i = node := by
  by_cases hi : i = node
  · exact Or.inr hi
  left
  have hmem : i ∈ others total node := mem_others.mpr ⟨h1, h2, hi⟩
  unfold idToCB
  cases hfind : (others total node).findIdx? fun j : ℕ => decide ((j : ℤ) = (i : ℤ)) with
  | none =>
    have := List.findIdx?_eq_none_iff.mp hfind i hmem
    exact absurd this (by simp)
  | some k =>
    obtain ⟨hk, hki, -⟩ := List.findIdx?_eq_some_iff_getElem.mp hfind
    simp only [decide_eq_true_eq, Int.natCast_inj] at hki
    unfold remoteNodeID
    rw [if_pos (Int.natCast_nonneg k), Int.toNat_natCast, List.getElem?_eq_getElem hk, hki]
    rfl

theorem idToCB_self (total node : ℕ) : idToCB total node node = -1 := by
  unfold idToCB
  cases hfind : (others total node).findIdx? fun j : ℕ => decide ((j : ℤ) = (node : ℤ)) with
  | none => rfl
  | some k =>
    obtain ⟨hk, hki, -⟩ := List.findIdx?_eq_some_iff_getElem.mp hfind
    simp only [decide_eq_true_eq, Int.natCast_inj] at hki
    have hmem := List.getElem_mem hk
    rw [hki] at hmem
    exact absurd rfl (mem_others.mp hmem).2.2

/-- The nodes `1, …, total`, each with its generated configuration. -/
def network (total : ℕ) (totalPages refill : Fin total → ℕ) (threshold : Fin total → ℤ) :
    Network (Fin total) where
  peer i d := ⟨remoteNodeID total (i + 1) d - 1, by
    have := @remoteNodeID_bounds total (i + 1) (by omega) (by omega) d
    omega⟩
  idToCB i j := idToCB total (i + 1) (j + 1 : ℕ)
  back := by
    intro i d
    have hbounds := @remoteNodeID_bounds total (i + 1) (by omega) (by omega) d
    have hself : remoteNodeID total (i + 1) (-1) = i + 1 := rfl
    apply Fin.ext
    simp only [Nat.sub_add_cancel hbounds.1]
    rcases @remoteNodeID_idToCB total (remoteNodeID total (i + 1) d) (i + 1) (by omega)
      (by omega) with h | h
    · rw [h, Nat.add_sub_cancel]
    · rw [← h, idToCB_self, hself, Nat.add_sub_cancel]
  totalPages := totalPages
  refill := refill
  threshold := threshold

/-- The same with the IDs the messages carry. -/
def wiring {totalPages refill : Fin total → ℕ} {threshold : Fin total → ℤ}
    (ht : total < 2 ^ 31) (hpages : ∀ m, totalPages m ≤ 2 ^ 31) (hrefill : ∀ m, refill m < 128) :
    Wiring (network total totalPages refill threshold) where
  comexID i := (i : ℕ) + 1
  id_fits i := fits_int (by omega) (by omega)
  idToCB r nodeID := idToCB total (r + 1) nodeID
  agrees _ _ := rfl
  pages_le := hpages
  refill_lt := hrefill

end Network

end Config
end Comex
