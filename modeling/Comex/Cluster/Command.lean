import Comex.Cluster.Config
import Comex.Cluster.Layout
import Comex.Lib.Numeral
import Comex.Lib.Separated
import Comex.Remote.Search

/-!
# The command that starts a node

What is written to `/proc/krping` is a string of options separated by commas, single
keywords or `option=operand`.  `krping_getopt` cuts the tokens off one by one, `krping_doit`
acts on each: on its first connection, and on what `COMEX_init_ENV` gets.  A token that is
not understood is reported and does nothing else.  The loop over the options ends here:
what `krping_doit` does afterwards sets `ret` anew, several times, and waits for good.

## Main definitions

* `krpingGetopt`, `doitOptions`, `krpingWriteProc` — the parser and its callers.
* `Setting`, `Writes` — what a token asks for, and how it is written.

## Main results

* `doitOptions_eq` — **the loop does what the tokens ask for, one after the other.**
* `meaning_eq_some_iff` — what is understood is well formed.
* `krpingWriteProc_text` — **the settings that are written are made.**
* `doitOptions_perm` — the order does not matter where no two settings are of a kind.
-/

namespace Comex
namespace Command

/-! ### The parser -/

/-- The kinds of operands, as bits of `has_arg`. -/
def optNoparam : ℕ := 1
def optInt : ℕ := 2
def optString : ℕ := 4

/-- `struct krping_option`. -/
structure KrpingOption where
  name : List Char
  hasArg : ℕ
  val : Char
  deriving DecidableEq, Repr

/-- `krping_opts`. -/
def krpingOpts : List KrpingOption :=
  [⟨"count".toList, optInt, 'C'⟩,
   ⟨"size".toList, optInt, 'S'⟩,
   ⟨"addr".toList, optString, 'a'⟩,
   ⟨"addr6".toList, optString, 'A'⟩,
   ⟨"port".toList, optInt, 'p'⟩,
   ⟨"verbose".toList, optNoparam, 'v'⟩,
   ⟨"server".toList, optNoparam, 's'⟩,
   ⟨"client".toList, optNoparam, 'c'⟩,
   ⟨"server_inv".toList, optNoparam, 'I'⟩,
   ⟨"bw".toList, optNoparam, 'B'⟩,
   ⟨"txdepth".toList, optInt, 'T'⟩,
   ⟨"poll".toList, optNoparam, 'P'⟩,
   ⟨"local_dma_lkey".toList, optNoparam, 'Z'⟩,
   ⟨"read_inv".toList, optNoparam, 'R'⟩,
   ⟨"node_ID".toList, optInt, 'i'⟩,
   ⟨"n_nodes".toList, optInt, 'n'⟩,
   ⟨"total_pages".toList, optInt, 't'⟩,
   ⟨"writeOut_buff".toList, optInt, 'w'⟩,
   ⟨"readIn_buff".toList, optInt, 'r'⟩,
   ⟨"proc_name".toList, optString, 'o'⟩]

/-- `EINVAL`, `EDOM` and `EOPNOTSUPP`. -/
def EINVAL : ℕ := 22
def EDOM : ℕ := 33
def EOPNOTSUPP : ℕ := 95

/-- What `krping_getopt` returns: 0, an option's `val`, or a negative error. -/
inductive Op
  | done
  | opt (val : Char)
  | error (errno : ℕ)
  deriving DecidableEq, Repr

/-- What `krping_getopt` leaves: the string that is left, which may be `NULL`, and its
outputs. -/
structure Getopt where
  op : Op
  options : Option (List Char)
  optarg : Option (List Char)
  value : ℕ
  deriving DecidableEq, Repr

/-- `strsep` at a comma. -/
def strsep (options : Option (List Char)) : Option (List Char × Option (List Char)) :=
  options.map (Separated.cut ',')

/-- How much is left. -/
def size (options : Option (List Char)) : ℕ := (options.map fun s => s.length + 1).getD 0

theorem size_strsep {options rest : Option (List Char)} {token : List Char}
    (h : strsep options = some (token, rest)) : size rest < size options := by
  cases options with
  | none => cases h
  | some s =>
    rw [strsep, Option.map_some, Option.some.injEq] at h
    cases rest with
    | none => exact Nat.succ_pos _
    | some r => exact Nat.succ_lt_succ (Separated.length_cut (by rw [h]))

/-- The next token that is not empty. -/
def nextToken (options : Option (List Char)) : Option (List Char × Option (List Char)) :=
  match _ : strsep options with
  | none => none
  | some (token, rest) => if token = [] then nextToken rest else some (token, rest)
termination_by size options
decreasing_by exact size_strsep ‹_›

/-- `krping_getopt` of a token: what it returns, the operand, and the number in it if it is
looked at. -/
def parseToken (opts : List KrpingOption) (token : List Char) :
    Op × Option (List Char) × Option ℕ :=
  let (name, val) := Separated.cut '=' token
  match opts.find? fun opt => opt.name = name with
  | none => (.error EOPNOTSUPP, val, none)
  | some opt =>
    match val with
    | none =>
      if opt.hasArg &&& optNoparam ≠ 0 then (.opt opt.val, none, none)
      else (.error EINVAL, none, none)
    | some v =>
      if opt.hasArg &&& optInt ≠ 0 then
        let (n, rest) := Numeral.strtoul (2 ^ 64) v
        (if rest = [] then .opt opt.val else .error EDOM, some v, some n)
      else if opt.hasArg &&& optString ≠ 0 then (.opt opt.val, some v, none)
      else (.error EINVAL, some v, none)

/-- `krping_getopt`. -/
def krpingGetopt (opts : List KrpingOption) (options optarg : Option (List Char)) (value : ℕ) :
    Getopt :=
  match nextToken options with
  | none => ⟨.done, none, optarg, value⟩
  | some (token, rest) =>
    let (op, arg, n) := parseToken opts token
    ⟨op, rest, arg, n.getD value⟩

/-! ### Its caller -/

/-- `AF_INET` and `AF_INET6`. -/
inductive Family
  | inet
  | inet6
  deriving DecidableEq, Repr

/-- What the options set: fields of `cbs[0]`, the variables of the module, and `ret` as it is
while `krping_doit` reads the options. -/
structure Settings where
  server : ℤ
  addrStr : List Char
  addr : List UInt8
  addrType : Family
  /-- In network byte order. -/
  port : ℕ
  verbose : ℤ
  totalPages : ℤ
  writeOutBuff : ℤ
  readInBuff : ℤ
  procName : List Char
  ret : ℤ
  deriving DecidableEq, Repr

/-- Assign to `ret`. -/
def Settings.setRet (st : Settings) (ret : ℤ) : Settings := { st with ret := ret }

/-- `htons` on a little-endian machine. -/
def htons (n : ℕ) : ℕ := n % 256 * 256 + n / 256 % 256

variable (pton : Family → List Char → Option (List UInt8))

/-- The options `a` and `A`: `in4_pton` and `in6_pton` write nothing if they fail. -/
def Settings.setAddr (st : Settings) (family : Family) (s : List Char) : Settings :=
  { st with
    addrStr := s
    addr := ((pton family s).map fun bs => bs ++ st.addr.drop bs.length).getD st.addr
    addrType := family }

/-- `cbs[0]` with the first entry of the node's configuration, whose address is a string
constant, and the variables of the module as it is loaded. -/
def Settings.start (e : Config.Entry) : Settings :=
  Settings.setAddr pton
    { server := if e.server then 1 else 0
      addrStr := []
      addr := List.replicate 16 0
      addrType := .inet
      port := e.port
      verbose := 0
      totalPages := 0
      writeOutBuff := 0
      readInBuff := 0
      procName := []
      ret := 0 }
    .inet (e.ip.drop 1).dropLast

/-- The `switch`; there is no value when memory is overrun. -/
def act (st : Settings) (g : Getopt) : Option Settings :=
  match g.op with
  | .opt 'a' => g.optarg.map (st.setAddr pton .inet)
  | .opt 'A' => g.optarg.map (st.setAddr pton .inet6)
  | .opt 'p' => some { st with port := htons g.value }
  | .opt 's' => some { st with server := 1 }
  | .opt 'c' => some { st with server := 0 }
  | .opt 'v' => some { st with verbose := st.verbose + 1 }
  | .opt 't' => some { st with totalPages := toInt g.value }
  | .opt 'w' => some { st with writeOutBuff := toInt g.value }
  | .opt 'r' => some { st with readInBuff := toInt g.value }
  | .opt 'o' =>
    -- `proc_name` has 100 bytes, one of them for the end of the string
    g.optarg.bind fun s => if s.length < 100 then some { st with procName := s } else none
  | _ => some (st.setRet (-EINVAL))

theorem size_nextToken {options rest : Option (List Char)} {token : List Char}
    (h : nextToken options = some (token, rest)) : size rest < size options := by
  fun_induction nextToken options with
  | case1 => cases h
  | case2 options rest' hsep ih => exact (ih h).trans (size_strsep hsep)
  | case3 options token' rest' hsep =>
    cases h
    exact size_strsep hsep

theorem size_krpingGetopt {opts : List KrpingOption} {options optarg : Option (List Char)}
    {value : ℕ} (h : (krpingGetopt opts options optarg value).op ≠ .done) :
    size (krpingGetopt opts options optarg value).options < size options := by
  unfold krpingGetopt at h ⊢
  cases hnext : nextToken options with
  | none =>
    rw [hnext] at h
    exact absurd rfl h
  | some token => exact size_nextToken hnext

/-- The loop of `krping_doit` over the options. -/
def doitOptions (options optarg : Option (List Char)) (optint : ℕ) (st : Settings) :
    Option Settings :=
  let g := krpingGetopt krpingOpts options optarg optint
  if _ : g.op = .done then some st
  else (act pton st g).bind (doitOptions g.options g.optarg g.value)
termination_by size options
decreasing_by exact size_krpingGetopt ‹_›

/-- The string that ends at the first zero byte. -/
def cString (bs : List Char) : List Char := bs.takeWhile fun c => c ≠ Char.ofNat 0

/-- `krping_write_proc` to the end of the option loop of `krping_doit`: the last byte is taken for
the end of the line; of no bytes, the one before the buffer is.  Whatever is in `optarg` and
`optint` is overwritten.  The `ret` of the result is the loop's own, not what is returned. -/
def krpingWriteProc (buffer : List Char) (optarg : Option (List Char)) (optint : ℕ)
    (st : Settings) : Option Settings :=
  if buffer = [] then none
  else doitOptions pton (some (cString (buffer.set (buffer.length - 1) (Char.ofNat 0))))
    optarg optint st

/-! ### What the tokens ask for -/

/-- What a token asks for. -/
inductive Setting
  | addr (family : Family) (s : List Char)
  | port (n : ℕ)
  | server (b : Bool)
  | verbose
  | totalPages (n : ℤ)
  | writeOutBuff (n : ℤ)
  | readInBuff (n : ℤ)
  | procName (s : List Char)
  deriving DecidableEq, Repr

/-- What `krping_doit` takes the outputs of `krping_getopt` for. -/
def asked : Op × Option (List Char) × Option ℕ → Option Setting
  | (.opt 'a', some s, _) => some (.addr .inet s)
  | (.opt 'A', some s, _) => some (.addr .inet6 s)
  | (.opt 'p', _, some n) => some (.port n)
  | (.opt 's', _, _) => some (.server true)
  | (.opt 'c', _, _) => some (.server false)
  | (.opt 'v', _, _) => some .verbose
  | (.opt 't', _, some n) => some (.totalPages (toInt n))
  | (.opt 'w', _, some n) => some (.writeOutBuff (toInt n))
  | (.opt 'r', _, some n) => some (.readInBuff (toInt n))
  | (.opt 'o', some s, _) => some (.procName s)
  | _ => none

/-- What a token asks for, if it is understood. -/
def meaning (token : List Char) : Option Setting := asked (parseToken krpingOpts token)

/-- A setting is made. -/
def Settings.make (st : Settings) : Setting → Settings
  | .addr family s => st.setAddr pton family s
  | .port n => { st with port := htons n }
  | .server b => { st with server := if b then 1 else 0 }
  | .verbose => { st with verbose := st.verbose + 1 }
  | .totalPages n => { st with totalPages := n }
  | .writeOutBuff n => { st with writeOutBuff := n }
  | .readInBuff n => { st with readInBuff := n }
  | .procName s => { st with procName := s }

/-- Making it overruns no memory. -/
def Setting.Safe : Setting → Prop
  | .procName s => s.length < 100
  | _ => True

instance (a : Setting) : Decidable a.Safe :=
  match a with
  | .procName s => inferInstanceAs (Decidable (s.length < 100))
  | .addr .. | .port _ | .server _ | .verbose => inferInstanceAs (Decidable True)
  | .totalPages _ | .writeOutBuff _ | .readInBuff _ => inferInstanceAs (Decidable True)

/-- What is asked for is done; a token that is not understood is an error. -/
def Settings.follow (st : Settings) (token : List Char) : Option Settings :=
  match meaning token with
  | none => some (st.setRet (-EINVAL))
  | some a => if a.Safe then some (st.make pton a) else none

/-- The tokens of a command. -/
def tokens (options : Option (List Char)) : List (List Char) :=
  ((options.map (List.splitOn ',')).getD []).filter (· ≠ [])

/-- How a setting is written. -/
inductive Writes : List Char → Setting → Prop
  | addr (s : List Char) : Writes ("addr=".toList ++ s) (.addr .inet s)
  | addr6 (s : List Char) : Writes ("addr6=".toList ++ s) (.addr .inet6 s)
  | port {v : List Char} {n : ℕ} (h : Numeral.Denotes v n) :
    Writes ("port=".toList ++ v) (.port (n % 2 ^ 64))
  | server : Writes "server".toList (.server true)
  | client : Writes "client".toList (.server false)
  | verbose : Writes "verbose".toList .verbose
  | totalPages {v : List Char} {n : ℕ} (h : Numeral.Denotes v n) :
    Writes ("total_pages=".toList ++ v) (.totalPages (toInt (n % 2 ^ 64 : ℕ)))
  | writeOutBuff {v : List Char} {n : ℕ} (h : Numeral.Denotes v n) :
    Writes ("writeOut_buff=".toList ++ v) (.writeOutBuff (toInt (n % 2 ^ 64 : ℕ)))
  | readInBuff {v : List Char} {n : ℕ} (h : Numeral.Denotes v n) :
    Writes ("readIn_buff=".toList ++ v) (.readInBuff (toInt (n % 2 ^ 64 : ℕ)))
  | procName (s : List Char) : Writes ("proc_name=".toList ++ s) (.procName s)

/-! ### One token -/

section Token

variable {token v : List Char} {opt : KrpingOption} {a : Setting} {n : ℕ}

/-- No name is there twice, no name has a `=`, and every option has one kind of operand. -/
theorem krpingOpts_spec : ∀ opt ∈ krpingOpts,
    krpingOpts.find? (fun o => o.name = opt.name) = some opt ∧ '=' ∉ opt.name ∧
      (opt.hasArg = optNoparam ∨ opt.hasArg = optInt ∨ opt.hasArg = optString) := by
  decide

theorem parseToken_noparam (hopt : opt ∈ krpingOpts) (hkind : opt.hasArg = optNoparam) :
    parseToken krpingOpts opt.name = (.opt opt.val, none, none) := by
  obtain ⟨hfind, heq, -⟩ := krpingOpts_spec opt hopt
  simp only [parseToken, Separated.cut_of_notMem heq, hfind, hkind]
  rfl

theorem parseToken_int (hopt : opt ∈ krpingOpts) (hkind : opt.hasArg = optInt)
    (hv : Numeral.strtoul (2 ^ 64) v = (n, [])) :
    parseToken krpingOpts (opt.name ++ '=' :: v) = (.opt opt.val, some v, some n) := by
  obtain ⟨hfind, heq, -⟩ := krpingOpts_spec opt hopt
  simp only [parseToken, Separated.cut_append heq, hfind, hkind, hv]
  rfl

theorem parseToken_string (hopt : opt ∈ krpingOpts) (hkind : opt.hasArg = optString) :
    parseToken krpingOpts (opt.name ++ '=' :: v) = (.opt opt.val, some v, none) := by
  obtain ⟨hfind, heq, -⟩ := krpingOpts_spec opt hopt
  simp only [parseToken, Separated.cut_append heq, hfind, hkind]
  rfl

/-- **What `krping_getopt` makes of a token**: an error, or one of the options, with what stands
behind its `=` as its kind wants it.  The token is cut at the first `=`, which no name holds. -/
theorem parseToken_cases (token : List Char) :
    (∃ e arg n, parseToken krpingOpts token = (.error e, arg, n)) ∨
    ∃ opt ∈ krpingOpts,
      (opt.hasArg = optNoparam ∧ token = opt.name) ∨
      (∃ v n, opt.hasArg = optInt ∧ token = opt.name ++ '=' :: v ∧
        Numeral.strtoul (2 ^ 64) v = (n, [])) ∨
      ∃ v, opt.hasArg = optString ∧ token = opt.name ++ '=' :: v := by
  rcases Separated.notMem_or_append '=' token with htoken | ⟨name, v, rfl, hname⟩
  · -- no `=`: only an option without a parameter is written so
    cases hfind : krpingOpts.find? fun o => o.name = token with
    | none =>
      left
      simp only [parseToken, Separated.cut_of_notMem htoken, hfind]
      exact ⟨_, _, _, rfl⟩
    | some opt =>
      have hopt := List.mem_of_find?_eq_some hfind
      have htok : opt.name = token := by simpa using List.find?_some hfind
      rcases (krpingOpts_spec opt hopt).2.2 with hkind | hkind | hkind
      · exact Or.inr ⟨opt, hopt, Or.inl ⟨hkind, htok.symm⟩⟩
      · left
        simp only [parseToken, Separated.cut_of_notMem htoken, hfind, hkind]
        exact ⟨_, _, _, rfl⟩
      · left
        simp only [parseToken, Separated.cut_of_notMem htoken, hfind, hkind]
        exact ⟨_, _, _, rfl⟩
  · -- an argument: a number to its end, or any string
    cases hfind : krpingOpts.find? fun o => o.name = name with
    | none =>
      left
      simp only [parseToken, Separated.cut_append hname, hfind]
      exact ⟨_, _, _, rfl⟩
    | some opt =>
      have hopt := List.mem_of_find?_eq_some hfind
      obtain rfl : opt.name = name := by simpa using List.find?_some hfind
      rcases (krpingOpts_spec opt hopt).2.2 with hkind | hkind | hkind
      · left
        simp only [parseToken, Separated.cut_append hname, hfind, hkind]
        exact ⟨_, _, _, rfl⟩
      · by_cases hrest : (Numeral.strtoul (2 ^ 64) v).2 = []
        · exact Or.inr ⟨opt, hopt, Or.inr (Or.inl ⟨v, _, hkind, rfl, Prod.ext rfl hrest⟩)⟩
        · left
          simp only [parseToken, Separated.cut_append hname, hfind, hkind]
          exact ⟨_, _, _, by rw [if_pos (by decide), if_neg hrest]⟩
      · exact Or.inr ⟨opt, hopt, Or.inr (Or.inr ⟨v, hkind, rfl⟩)⟩

/-- The options of each kind, and among them those that are acted on. -/
theorem noparam_cases : ∀ opt ∈ krpingOpts, opt.hasArg = optNoparam →
    opt = ⟨"verbose".toList, optNoparam, 'v'⟩ ∨ opt = ⟨"server".toList, optNoparam, 's'⟩ ∨
      opt = ⟨"client".toList, optNoparam, 'c'⟩ ∨ opt.val ∈ ['I', 'B', 'P', 'Z', 'R'] := by
  decide

theorem int_cases : ∀ opt ∈ krpingOpts, opt.hasArg = optInt →
    opt = ⟨"port".toList, optInt, 'p'⟩ ∨ opt = ⟨"total_pages".toList, optInt, 't'⟩ ∨
      opt = ⟨"writeOut_buff".toList, optInt, 'w'⟩ ∨ opt = ⟨"readIn_buff".toList, optInt, 'r'⟩ ∨
        opt.val ∈ ['C', 'S', 'T', 'i', 'n'] := by
  decide

theorem string_cases : ∀ opt ∈ krpingOpts, opt.hasArg = optString →
    opt = ⟨"addr".toList, optString, 'a'⟩ ∨ opt = ⟨"addr6".toList, optString, 'A'⟩ ∨
      opt = ⟨"proc_name".toList, optString, 'o'⟩ := by
  decide

/-- The options nothing is done for. -/
def idle : List Char := ['I', 'B', 'P', 'Z', 'R', 'C', 'S', 'T', 'i', 'n']

theorem asked_idle {c : Char} (hc : c ∈ idle) (arg : Option (List Char)) (n : Option ℕ) :
    asked (.opt c, arg, n) = none := by
  simp only [idle, List.mem_cons, List.not_mem_nil, or_false] at hc
  rcases hc with rfl | rfl | rfl | rfl | rfl | rfl | rfl | rfl | rfl | rfl <;> rfl

/-- What is understood is written so: the cases are the kinds of the options, and among them
those that `krping_doit` has a case for. -/
theorem writes_of_meaning (h : meaning token = some a) : Writes token a := by
  rcases parseToken_cases token with ⟨e, arg, n, hp⟩ | ⟨opt, hopt, ⟨hkind, rfl⟩ |
    ⟨v, n, hkind, rfl, hv⟩ | ⟨v, hkind, rfl⟩⟩
  · -- an error asks for nothing
    rw [meaning, hp] at h
    cases h
  · rw [meaning, parseToken_noparam hopt hkind] at h
    rcases noparam_cases opt hopt hkind with rfl | rfl | rfl | hval
    · cases h
      exact .verbose
    · cases h
      exact .server
    · cases h
      exact .client
    · rw [asked_idle (List.mem_append_left _ hval)] at h
      cases h
  · rw [meaning, parseToken_int hopt hkind hv] at h
    obtain ⟨k, hk, rfl⟩ := Numeral.strtoul_eq_iff.mp hv
    rcases int_cases opt hopt hkind with rfl | rfl | rfl | rfl | hval
    · cases h
      exact .port hk
    · cases h
      exact .totalPages hk
    · cases h
      exact .writeOutBuff hk
    · cases h
      exact .readInBuff hk
    · rw [asked_idle (List.mem_append_right ['I', 'B', 'P', 'Z', 'R'] hval)] at h
      cases h
  · rw [meaning, parseToken_string hopt hkind] at h
    rcases string_cases opt hopt hkind with rfl | rfl | rfl <;> cases h
    · exact .addr v
    · exact .addr6 v
    · exact .procName v

theorem meaning_noparam (name : List Char) (val : Char)
    (ho : (⟨name, optNoparam, val⟩ : KrpingOption) ∈ krpingOpts) :
    meaning name = asked (.opt val, none, none) :=
  congrArg asked (parseToken_noparam ho rfl)

theorem meaning_int (name : List Char) (val : Char)
    (ho : (⟨name, optInt, val⟩ : KrpingOption) ∈ krpingOpts) (hv : Numeral.Denotes v n) :
    meaning (name ++ '=' :: v) = asked (.opt val, some v, some (n % 2 ^ 64)) :=
  congrArg asked (parseToken_int ho rfl (Numeral.strtoul_eq_iff.mpr ⟨n, hv, rfl⟩))

theorem meaning_string (name v : List Char) (val : Char)
    (ho : (⟨name, optString, val⟩ : KrpingOption) ∈ krpingOpts) :
    meaning (name ++ '=' :: v) = asked (.opt val, some v, none) :=
  congrArg asked (parseToken_string ho rfl)

/-- What is written so is understood. -/
theorem meaning_of_writes (h : Writes token a) : meaning token = some a := by
  cases h with
  | addr s => exact meaning_string "addr".toList s 'a' (by decide)
  | addr6 s => exact meaning_string "addr6".toList s 'A' (by decide)
  | port hv => exact meaning_int "port".toList 'p' (by decide) hv
  | server => exact meaning_noparam "server".toList 's' (by decide)
  | client => exact meaning_noparam "client".toList 'c' (by decide)
  | verbose => exact meaning_noparam "verbose".toList 'v' (by decide)
  | totalPages hv => exact meaning_int "total_pages".toList 't' (by decide) hv
  | writeOutBuff hv => exact meaning_int "writeOut_buff".toList 'w' (by decide) hv
  | readInBuff hv => exact meaning_int "readIn_buff".toList 'r' (by decide) hv
  | procName s => exact meaning_string "proc_name".toList s 'o' (by decide)

/-- **What is understood is an option with what it needs**: `Writes` says how each setting can
be written without looking at the parser, and the two agree in both directions. -/
theorem meaning_eq_some_iff : meaning token = some a ↔ Writes token a :=
  ⟨writes_of_meaning, meaning_of_writes⟩

/-- A token that is not understood is an error or an idle option. -/
theorem op_of_meaning (h : meaning token = none) :
    (∃ e, (parseToken krpingOpts token).1 = .error e) ∨
      ∃ c ∈ idle, (parseToken krpingOpts token).1 = .opt c := by
  rcases parseToken_cases token with ⟨e, arg, n, hp⟩ | ⟨opt, hopt, ⟨hkind, rfl⟩ |
    ⟨v, n, hkind, rfl, hv⟩ | ⟨v, hkind, rfl⟩⟩
  · exact Or.inl ⟨e, by rw [hp]⟩
  · rw [meaning, parseToken_noparam hopt hkind] at h
    rw [parseToken_noparam hopt hkind]
    rcases noparam_cases opt hopt hkind with rfl | rfl | rfl | hval
    · cases h
    · cases h
    · cases h
    · exact Or.inr ⟨_, List.mem_append_left _ hval, rfl⟩
  · rw [meaning, parseToken_int hopt hkind hv] at h
    rw [parseToken_int hopt hkind hv]
    rcases int_cases opt hopt hkind with rfl | rfl | rfl | rfl | hval
    · cases h
    · cases h
    · cases h
    · cases h
    · exact Or.inr ⟨_, List.mem_append_right ['I', 'B', 'P', 'Z', 'R'] hval, rfl⟩
  · rw [meaning, parseToken_string hopt hkind] at h
    rcases string_cases opt hopt hkind with rfl | rfl | rfl <;> cases h

theorem op_ne_done (token : List Char) : (parseToken krpingOpts token).1 ≠ .done := by
  rcases parseToken_cases token with ⟨e, arg, n, hp⟩ | ⟨opt, hopt, ⟨hkind, rfl⟩ |
    ⟨v, n, hkind, rfl, hv⟩ | ⟨v, hkind, rfl⟩⟩
  · rw [hp]
    exact Op.noConfusion
  · rw [parseToken_noparam hopt hkind]
    exact Op.noConfusion
  · rw [parseToken_int hopt hkind hv]
    exact Op.noConfusion
  · rw [parseToken_string hopt hkind]
    exact Op.noConfusion

variable {pton : Family → List Char → Option (List UInt8)} {st : Settings} {op : Op}
  {options arg rest : Option (List Char)} {num : Option ℕ} {value : ℕ}

theorem act_of_asked (h : asked (op, arg, num) = some a) :
    act pton st ⟨op, rest, arg, num.getD value⟩ =
      if a.Safe then some (st.make pton a) else none := by
  unfold asked at h
  split at h <;> rename_i heq <;> cases h <;> cases heq <;> rfl

theorem act_idle {c : Char} (hc : c ∈ idle) :
    act pton st ⟨.opt c, rest, arg, value⟩ = some (st.setRet (-EINVAL)) := by
  simp only [idle, List.mem_cons, List.not_mem_nil, or_false] at hc
  rcases hc with rfl | rfl | rfl | rfl | rfl | rfl | rfl | rfl | rfl | rfl <;> rfl

/-- The `switch` does what the token asks for. -/
theorem act_eq (token : List Char) (value : ℕ) :
    act pton st ⟨(parseToken krpingOpts token).1, rest, (parseToken krpingOpts token).2.1,
      (parseToken krpingOpts token).2.2.getD value⟩ = st.follow pton token := by
  unfold Settings.follow
  cases hm : meaning token with
  | some a => exact act_of_asked hm
  | none =>
    rcases op_of_meaning hm with ⟨e, he⟩ | ⟨c, hc, hop⟩
    · rw [he]
      rfl
    · rw [hop]
      exact act_idle hc

end Token

/-! ### The whole command -/

section Loop

variable {pton : Family → List Char → Option (List UInt8)} {options : Option (List Char)}

theorem tokens_strsep {rest : Option (List Char)} {token : List Char}
    (h : strsep options = some (token, rest)) :
    tokens options = (if token = [] then [] else [token]) ++ tokens rest := by
  cases options with
  | none => cases h
  | some s =>
    rw [strsep, Option.map_some, Option.some.injEq] at h
    simp only [tokens, Option.map_some, Option.getD_some]
    rw [Separated.splitOn_cut, h, List.filter_cons]
    by_cases ht : token = []
    · simp [ht]
    · simp [ht]

/-- What `nextToken` passes over is empty. -/
theorem tokens_eq (options : Option (List Char)) :
    tokens options = ((nextToken options).map fun t => t.1 :: tokens t.2).getD [] := by
  fun_induction nextToken options with
  | case1 options h =>
    cases options with
    | none => rfl
    | some s => cases h
  | case2 options rest h ih =>
    rw [tokens_strsep h, if_pos rfl, List.nil_append, ih]
  | case3 options token rest h hne =>
    rw [tokens_strsep h, if_neg hne]
    rfl

theorem krpingGetopt_done {optarg : Option (List Char)} {value : ℕ}
    (h : (krpingGetopt krpingOpts options optarg value).op = .done) : tokens options = [] := by
  rw [tokens_eq]
  cases hnext : nextToken options with
  | none => rfl
  | some t =>
    rw [krpingGetopt, hnext] at h
    exact absurd h (op_ne_done t.1)

theorem krpingGetopt_more {optarg : Option (List Char)} {value : ℕ} {g : Getopt}
    (hg : krpingGetopt krpingOpts options optarg value = g) (hdone : g.op ≠ .done) :
    ∃ token, tokens options = token :: tokens g.options ∧
      ∀ st, act pton st g = Settings.follow pton st token := by
  subst hg
  rw [tokens_eq]
  unfold krpingGetopt at hdone ⊢
  cases hnext : nextToken options with
  | none =>
    rw [hnext] at hdone
    exact absurd rfl hdone
  | some t => exact ⟨t.1, rfl, fun st => act_eq t.1 value⟩

theorem doitOptions_eq_foldlM (pton : Family → List Char → Option (List UInt8))
    (options optarg : Option (List Char)) (optint : ℕ) (st : Settings) :
    doitOptions pton options optarg optint st =
      (tokens options).foldlM (Settings.follow pton) st := by
  fun_induction doitOptions pton options optarg optint st with
  | case1 options optarg optint st g hdone =>
    rw [krpingGetopt_done hdone]
    rfl
  | case2 options optarg optint st g hdone ih =>
    obtain ⟨token, htokens, hact⟩ := @krpingGetopt_more pton options optarg optint g rfl hdone
    rw [htokens, List.foldlM_cons, hact]
    exact congrArg _ (funext ih)

@[simp] theorem setRet_ret (st : Settings) : st.setRet st.ret = st := rfl

@[simp] theorem ret_setRet (st : Settings) (r : ℤ) : (st.setRet r).ret = r := rfl

@[simp] theorem setRet_setRet (st : Settings) (r r' : ℤ) :
    (st.setRet r).setRet r' = st.setRet r' := rfl

/-- No setting is about `ret`. -/
theorem make_setRet (st : Settings) (a : Setting) (r : ℤ) :
    (st.setRet r).make pton a = (st.make pton a).setRet r := by
  cases a <;> rfl

theorem foldl_make_setRet (pton : Family → List Char → Option (List UInt8)) (l : List Setting)
    (st : Settings) (r : ℤ) :
    l.foldl (Settings.make pton) (st.setRet r) = (l.foldl (Settings.make pton) st).setRet r := by
  induction l generalizing st with
  | nil => rfl
  | cons a l ih => rw [List.foldl_cons, make_setRet, ih, List.foldl_cons]

theorem ret_foldl_make (pton : Family → List Char → Option (List UInt8)) (l : List Setting)
    (st : Settings) :
    (l.foldl (Settings.make pton) st).ret = st.ret := by
  have h := foldl_make_setRet pton l st st.ret
  rw [setRet_ret] at h
  rw [h, ret_setRet]

/-- The settings a command asks for. -/
def settings (options : Option (List Char)) : List Setting := (tokens options).filterMap meaning

/-- **What a command does**: the settings that its tokens ask for, one after the other; a
token that is not understood changes `ret` alone, and a name that is too long overruns
`proc_name`. -/
theorem doitOptions_eq (pton : Family → List Char → Option (List UInt8))
    (options optarg : Option (List Char)) (optint : ℕ) (st : Settings) :
    doitOptions pton options optarg optint st =
      if ∀ a ∈ settings options, a.Safe then
        some (((settings options).foldl (Settings.make pton) st).setRet
          (if ∃ t ∈ tokens options, meaning t = none then -EINVAL else st.ret))
      else none := by
  rw [doitOptions_eq_foldlM]
  unfold settings
  generalize tokens options = ts
  induction ts generalizing st with
  | nil => rfl
  | cons t ts ih =>
    rw [List.foldlM_cons]
    cases hm : meaning t with
    | none =>
      -- `ret` is set here, and none of the later tokens resets it
      have hsome : ∃ u ∈ t :: ts, meaning u = none := ⟨t, List.mem_cons_self .., hm⟩
      have hfollow : st.follow pton t = some (st.setRet (-EINVAL)) := by
        rw [Settings.follow, hm]
      rw [hfollow, List.filterMap_cons_none hm, if_pos hsome, Option.bind_eq_bind,
        Option.bind_some, ih, foldl_make_setRet, ret_setRet, setRet_setRet, ite_self]
    | some a =>
      have hiff : (∃ u ∈ t :: ts, meaning u = none) ↔ ∃ u ∈ ts, meaning u = none := by simp [hm]
      rw [List.filterMap_cons_some hm, Settings.follow, hm]
      by_cases ha : a.Safe
      · have hmake : (st.make pton a).ret = st.ret := ret_foldl_make pton [a] st
        simp only [ha, if_true, Option.bind_eq_bind, Option.bind_some, ih, hmake, hiff,
          List.forall_mem_cons, true_and, List.foldl_cons]
      · simp only [List.forall_mem_cons, ha, false_and, if_false]
        rfl

/-! ### A command and its text -/

/-- A setting as text. -/
def Setting.text : Setting → List Char
  | .addr .inet s => "addr=".toList ++ s
  | .addr .inet6 s => "addr6=".toList ++ s
  | .port n => "port=".toList ++ Nat.toDigits 10 n
  | .server b => if b then "server".toList else "client".toList
  | .verbose => "verbose".toList
  | .totalPages n => "total_pages=".toList ++ Nat.toDigits 10 n.toNat
  | .writeOutBuff n => "writeOut_buff=".toList ++ Nat.toDigits 10 n.toNat
  | .readInBuff n => "readIn_buff=".toList ++ Nat.toDigits 10 n.toNat
  | .procName s => "proc_name=".toList ++ s

/-- A string that can stand in a command. -/
def Plain (s : List Char) : Prop := ',' ∉ s ∧ Char.ofNat 0 ∉ s

instance (s : List Char) : Decidable (Plain s) := inferInstanceAs (Decidable (_ ∧ _))

/-- A setting that can be asked for. -/
def Setting.Valid : Setting → Prop
  | .addr _ s => Plain s
  | .port n => n < 2 ^ 64
  | .totalPages n | .writeOutBuff n | .readInBuff n => 0 ≤ n ∧ n < 2 ^ 31
  | .server _ | .verbose => True
  | .procName s => Plain s ∧ s.length < 100

theorem plain_toDigits (n : ℕ) : Plain (Nat.toDigits 10 n) := by
  constructor <;> intro hc <;>
    exact absurd (Nat.isDigit_of_mem_toDigits (by decide) (by decide) hc) (by decide)

theorem Plain.append {s t : List Char} (hs : Plain s) (ht : Plain t) : Plain (s ++ t) :=
  ⟨fun hc => (List.mem_append.mp hc).elim hs.1 ht.1,
    fun hc => (List.mem_append.mp hc).elim hs.2 ht.2⟩

theorem Setting.Valid.plain {a : Setting} (h : a.Valid) : Plain a.text := by
  have hnumber : ∀ {s : List Char} (n : ℕ), Plain s → Plain (s ++ Nat.toDigits 10 n) :=
    fun n hs => hs.append (plain_toDigits n)
  cases a with
  | addr family s =>
    cases family with
    | inet => exact Plain.append (by decide) h
    | inet6 => exact Plain.append (by decide) h
  | port n => exact hnumber n (by decide)
  | server b => cases b <;> decide
  | verbose => decide
  | totalPages n => exact hnumber n.toNat (by decide)
  | writeOutBuff n => exact hnumber n.toNat (by decide)
  | readInBuff n => exact hnumber n.toNat (by decide)
  | procName s => exact Plain.append (by decide) h.1

/-- What is written is understood. -/
theorem meaning_text {a : Setting} (h : a.Valid) : meaning a.text = some a := by
  apply meaning_eq_some_iff.mpr
  -- a valid number comes through `strtoul` and the cut to its field as it is
  have hnumber : ∀ {P : ℕ → Prop} {n : ℕ}, n < 2 ^ 64 → P (n % 2 ^ 64) → P n := by
    intro P n hn hp
    rwa [Nat.mod_eq_of_lt hn] at hp
  have hint : ∀ {P : ℤ → Prop} {n : ℤ}, 0 ≤ n ∧ n < 2 ^ 31 →
      P (toInt (n.toNat % 2 ^ 64 : ℕ)) → P n := by
    intro P n hn hp
    have hn' : toInt (n.toNat % 2 ^ 64 : ℕ) = n := by
      rw [Node.toInt_eq (by unfold Node.IntOk; omega)]
      omega
    rwa [hn'] at hp
  cases a with
  | addr family s =>
    cases family with
    | inet => exact .addr s
    | inet6 => exact .addr6 s
  | port n =>
    exact hnumber (P := fun m => Writes _ (.port m)) h (.port (Numeral.denotes_toDigits n))
  | server b =>
    cases b with
    | true => exact .server
    | false => exact .client
  | verbose => exact .verbose
  | totalPages n =>
    exact hint (P := fun m => Writes _ (.totalPages m)) h
      (.totalPages (Numeral.denotes_toDigits n.toNat))
  | writeOutBuff n =>
    exact hint (P := fun m => Writes _ (.writeOutBuff m)) h
      (.writeOutBuff (Numeral.denotes_toDigits n.toNat))
  | readInBuff n =>
    exact hint (P := fun m => Writes _ (.readInBuff m)) h
      (.readInBuff (Numeral.denotes_toDigits n.toNat))
  | procName s => exact .procName s

/-- A command for some settings. -/
def text (l : List Setting) : List Char := [','].intercalate (l.map Setting.text)

theorem tokens_text {l : List Setting} (h : ∀ a ∈ l, a.Valid) :
    tokens (some (text l)) = l.map Setting.text := by
  cases l with
  | nil => rfl
  | cons a l =>
    have hcomma : ∀ s ∈ (a :: l).map Setting.text, ',' ∉ s := by
      intro s hs
      obtain ⟨b, hb, rfl⟩ := List.mem_map.mp hs
      exact (h b hb).plain.1
    have hne : ∀ s ∈ (a :: l).map Setting.text, decide (s ≠ []) = true := by
      intro s hs
      obtain ⟨b, hb, rfl⟩ := List.mem_map.mp hs
      have hm := meaning_text (h b hb)
      apply decide_eq_true
      intro hnil
      rw [hnil] at hm
      cases hm
    rw [tokens, Option.map_some, Option.getD_some, text,
      List.splitOn_intercalate ',' hcomma (by simp), List.filter_eq_self.mpr hne]

theorem settings_text {l : List Setting} (h : ∀ a ∈ l, a.Valid) :
    settings (some (text l)) = l := by
  rw [settings, tokens_text h, List.filterMap_map]
  induction l with
  | nil => rfl
  | cons a l ih =>
    have ha : (meaning ∘ Setting.text) a = some a := meaning_text (h a (List.mem_cons_self ..))
    rw [List.filterMap_cons_some ha, ih fun b hb => h b (List.mem_cons_of_mem _ hb)]

theorem Setting.Valid.safe {a : Setting} (h : a.Valid) : a.Safe := by
  cases a with
  | procName s => exact h.2
  | _ => exact trivial

theorem nul_notMem_text {l : List Setting} (h : ∀ a ∈ l, a.Valid) : Char.ofNat 0 ∉ text l := by
  induction l with
  | nil => exact List.not_mem_nil
  | cons a l ih =>
    have ha := (h a (List.mem_cons_self ..)).plain.2
    have hl := ih fun b hb => h b (List.mem_cons_of_mem _ hb)
    cases l with
    | nil => rwa [text, List.map_singleton, List.intercalate_singleton]
    | cons b l =>
      rw [text, List.map_cons, List.intercalate_cons_of_ne_nil (by simp)]
      intro hc
      rcases List.mem_append.mp hc with hc | hc
      · rcases List.mem_append.mp hc with hc | hc
        · exact ha hc
        · exact absurd hc (by decide)
      · exact hl hc

/-- The string ends where the last byte was. -/
theorem cString_set {s : List Char} (h : Char.ofNat 0 ∉ s) (c : Char) :
    cString ((s ++ [c]).set ((s ++ [c]).length - 1) (Char.ofNat 0)) = s := by
  have hset : (s ++ [c]).set ((s ++ [c]).length - 1) (Char.ofNat 0) = s ++ [Char.ofNat 0] := by
    rw [List.length_append, List.length_singleton, Nat.add_sub_cancel,
      List.set_append_right _ _ (Nat.le_refl _), Nat.sub_self]
    rfl
  have hne : ∀ x ∈ s, decide (x ≠ Char.ofNat 0) = true := fun x hx =>
    decide_eq_true fun hx0 => h (hx0 ▸ hx)
  rw [hset, cString, List.takeWhile_append_of_pos hne, List.takeWhile_cons_of_neg (by decide),
    List.append_nil]

/-- **The settings that are written are made**, one after the other, and the option loop reports
no error. -/
theorem krpingWriteProc_text {l : List Setting} (h : ∀ a ∈ l, a.Valid) (c : Char)
    (optarg : Option (List Char)) (optint : ℕ) (st : Settings) :
    krpingWriteProc pton (text l ++ [c]) optarg optint st =
      some (l.foldl (Settings.make pton) st) := by
  have hunderstood : ¬ ∃ t ∈ tokens (some (text l)), meaning t = none := by
    rintro ⟨t, ht, hm⟩
    rw [tokens_text h] at ht
    obtain ⟨a, ha, rfl⟩ := List.mem_map.mp ht
    rw [meaning_text (h a ha)] at hm
    cases hm
  rw [krpingWriteProc, if_neg (by simp), cString_set (nul_notMem_text h), doitOptions_eq,
    settings_text h, if_pos fun a ha => (h a ha).safe, if_neg hunderstood,
    ← ret_foldl_make pton l st, setRet_ret]

/-- Node 1 of two is told its layout. -/
theorem krpingWriteProc_text_two :
    krpingWriteProc (fun _ _ => none) "total_pages=1024,readIn_buff=64,proc_name=redis\n".toList
        none 0 (.start (fun _ _ => none) (Config.entry "10.0.0.".toList 1 2)) =
      some
        { server := 1
          addrStr := "10.0.0.1".toList
          addr := List.replicate 16 0
          addrType := .inet
          port := 5212
          verbose := 0
          totalPages := 1024
          writeOutBuff := 0
          readInBuff := 64
          procName := "redis".toList
          ret := 0 } := by
  have hvalid : ∀ a ∈ [Setting.totalPages 1024, .readInBuff 64, .procName "redis".toList],
      a.Valid := by
    simp only [List.forall_mem_cons, List.not_mem_nil, false_implies, implies_true, and_true]
    exact ⟨⟨by decide, by norm_num⟩, ⟨by decide, by norm_num⟩, by decide, by decide⟩
  exact krpingWriteProc_text hvalid '\n' none 0 _

/-- The command for a layout. -/
def ofOptions (opt : Layout.Options) (name : List Char) : List Setting :=
  [.totalPages opt.totalPages, .writeOutBuff opt.writeOut, .readInBuff opt.readIn, .procName name]

/-- The layout of a node is what its command says, and its connection is as configured. -/
theorem krpingWriteProc_ofOptions (opt : Layout.Options) (hw : opt.writeOut < 2 ^ 31)
    {name : List Char} (hname : Plain name) (hlen : name.length < 100) (c : Char)
    (optarg : Option (List Char)) (optint : ℕ) (st : Settings) :
    krpingWriteProc pton (text (ofOptions opt name) ++ [c]) optarg optint st =
      some { st with
        totalPages := opt.totalPages
        writeOutBuff := opt.writeOut
        readInBuff := opt.readIn
        procName := name } := by
  have hr := opt.readIn_lt
  have ht := opt.totalPages_lt
  have hvalid : ∀ a ∈ ofOptions opt name, a.Valid := by
    simp only [ofOptions, List.forall_mem_cons, List.not_mem_nil, false_implies, implies_true,
      and_true, Setting.Valid]
    exact ⟨by omega, by omega, by omega, hname, hlen⟩
  rw [krpingWriteProc_text hvalid]
  rfl

/-! ### The order of the tokens -/

/-- What a setting is about. -/
def Setting.kind : Setting → ℕ
  | .addr .. => 0
  | .port _ => 1
  | .server _ => 2
  | .verbose => 3
  | .totalPages _ => 4
  | .writeOutBuff _ => 5
  | .readInBuff _ => 6
  | .procName _ => 7

theorem make_comm {a b : Setting} (h : a.kind = b.kind → a = b) (st : Settings) :
    (st.make pton a).make pton b = (st.make pton b).make pton a := by
  by_cases hk : a.kind = b.kind
  · rw [h hk]
  · cases a <;> cases b <;> first | exact absurd rfl hk | rfl

/-- **The order of the tokens does not matter where no two ask for different things of one
kind.** -/
theorem doitOptions_perm {options options' : Option (List Char)}
    (h : (tokens options).Perm (tokens options'))
    (hkind : ∀ a ∈ settings options, ∀ b ∈ settings options, a.kind = b.kind → a = b)
    (optarg optarg' : Option (List Char)) (optint optint' : ℕ) (st : Settings) :
    doitOptions pton options optarg optint st = doitOptions pton options' optarg' optint' st := by
  have hsettings : (settings options).Perm (settings options') := h.filterMap meaning
  have hfold : (settings options).foldl (Settings.make pton) st =
      (settings options').foldl (Settings.make pton) st :=
    hsettings.foldl_eq' (fun a ha b hb st => make_comm (hkind a ha b hb) st) st
  have hsafe : (∀ a ∈ settings options, a.Safe) ↔ ∀ a ∈ settings options', a.Safe :=
    forall_congr' fun a => by rw [hsettings.mem_iff]
  have hret : (∃ t ∈ tokens options, meaning t = none) ↔
      ∃ t ∈ tokens options', meaning t = none := exists_congr fun t => by rw [h.mem_iff]
  rw [doitOptions_eq, doitOptions_eq, hfold]
  simp only [hsafe, hret]

/-- Two settings and an option nothing is done for. -/
theorem doitOptions_perm_two :
    doitOptions (fun _ _ => none) (some "client,bw,port=0x50".toList) none 0
        (.start (fun _ _ => none) (Config.entry "10.0.0.".toList 1 2)) =
      doitOptions (fun _ _ => none) (some "port=0x50,,client,bw".toList) none 0
        (.start (fun _ _ => none) (Config.entry "10.0.0.".toList 1 2)) :=
  doitOptions_perm (by decide) (by decide) none none 0 0 _

end Loop

end Command
end Comex
