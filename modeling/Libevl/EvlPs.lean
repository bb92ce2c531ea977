import Libevl.EvlCheck
import Libevl.ForwardList
import Mathlib.Algebra.Order.Ring.Int

/-!
# The threads of evl ps

`nftw` presents the files below the directory of threads one after the other,
and `scan_thread` collects what they contain into one entry for each thread. The
entries are linked through their `next` members, and a hash table of limited
capacity finds them by name. `sort_thread_info` links those again that could be
parsed. Machine words have 64 bits.
-/
namespace Libevl.EvlPs
open ForwardList EvlCheck

/-- The conversions of `sscanf`. -/
inductive Conv
  | d | lu | llu | x | ms
  deriving DecidableEq, Repr

/-- What a conversion assigns. -/
inductive Val
  | int (v : ℤ)
  | nat (v : ℕ)
  | str (v : List Char)
  deriving DecidableEq, Repr

def digitVal (c : Char) : ℕ :=
  if '0' ≤ c ∧ c ≤ '9' then c.toNat - 48
  else if 'a' ≤ c ∧ c ≤ 'f' then c.toNat - 87
  else if 'A' ≤ c ∧ c ≤ 'F' then c.toNat - 55
  else 16

/-- Digits, and what follows them. -/
def scanDigits (base : ℕ) (acc : ℕ) : List Char → ℕ × List Char
  | [] => (acc, [])
  | c :: s => if digitVal c < base then scanDigits base (acc * base + digitVal c) s else (acc, c :: s)

/-- An optional sign and digits; in base 16 they may follow `0x`. -/
def scanNumber (base : ℕ) (s : List Char) : Option (Bool × ℕ × List Char) :=
  let neg := s.head? = some '-'
  let s := if s.head? = some '-' ∨ s.head? = some '+' then s.tail else s
  let hex := base = 16 ∧ s.head? = some '0' ∧ (s.tail.head? = some 'x' ∨ s.tail.head? = some 'X')
  let s' := if hex then s.tail.tail else s
  let r := scanDigits base 0 s'
  if hex ∨ r.2.length < s'.length then some (neg, r) else none

/-- `strtol` and `strtoul`, which saturate. -/
def toLong (neg : Bool) (v : ℕ) : ℤ := if neg then max (-v) (-2 ^ 63) else min v (2 ^ 63 - 1)
def toUlong (neg : Bool) (v : ℕ) : ℕ :=
  if 2 ^ 64 ≤ v then 2 ^ 64 - 1 else if neg then (2 ^ 64 - v) % 2 ^ 64 else v

/-- A conversion, on a text that starts behind the blanks. -/
def Conv.read (s : List Char) : Conv → Option (Val × List Char)
  | .d => (scanNumber 10 s).map fun (neg, v, rest) => (.int ((toLong neg v).bmod (2 ^ 32)), rest)
  | .lu | .llu => (scanNumber 10 s).map fun (neg, v, rest) => (.nat (toUlong neg v), rest)
  | .x => (scanNumber 16 s).map fun (neg, v, rest) => (.nat (toUlong neg v % 2 ^ 32), rest)
  | .ms => some (.str (s.takeWhile (!isspace ·)), s.dropWhile (!isspace ·))

/-- The values assigned, and whether the text ended in front of a conversion. -/
def scanConvs : List Conv → List Char → List Val × Bool
  | [], _ => ([], false)
  | c :: cs, s =>
    let s := s.dropWhile isspace
    if s = [] then ([], true)
    else match c.read s with
      | none => ([], false)
      | some (v, rest) =>
        let r := scanConvs cs rest
        (v :: r.1, r.2)

/-- `sscanf`, with conversions separated by blanks: its result, and the values. -/
def sscanf (cs : List Conv) (buf : List Char) : ℤ × List Val :=
  let r := scanConvs cs buf
  (if r.1 = [] ∧ r.2 then -1 else r.1.length, r.1)

/-- A value that was assigned, or the old one. -/
def assignInt (vs : List Val) (i : ℕ) (old : ℤ) : ℤ :=
  match vs[i]? with
  | some (.int v) => v
  | _ => old

def assignNat (vs : List Val) (i : ℕ) (old : ℕ) : ℕ :=
  match vs[i]? with
  | some (.nat v) => v
  | _ => old

def assignStr (vs : List Val) (i : ℕ) (old : Option (List Char)) : Option (List Char) :=
  match vs[i]? with
  | some (.str v) => some v
  | _ => old

/-- `struct thread_info`, but for its link. -/
structure ThreadInfo where
  name : String
  cpu : ℤ
  bprio : ℤ
  cprio : ℤ
  policy : Option (List Char)
  policyDetails : Option (List Char)
  nrInbandsw : ℕ
  nrCtxsw : ℕ
  nrSyscalls : ℕ
  nrRwakeups : ℕ
  cpuTime : ℕ
  timeout : ℕ
  wchan : Option (List Char)
  percentCpu : ℤ
  state : ℕ
  pid : ℤ
  parseOk : Bool
  deriving DecidableEq, Repr

/-- A cleared entry. -/
def ThreadInfo.zero (name : String) : ThreadInfo :=
  ⟨name, 0, 0, 0, none, none, 0, 0, 0, 0, 0, 0, none, 0, 0, 0, false⟩

/-- `collect_sched_info`. -/
def collectSchedInfo (ti : ThreadInfo) (buf : List Char) : ThreadInfo × Bool :=
  let r := sscanf [.d, .d, .d, .ms, .ms] buf
  ({ ti with
      cpu := assignInt r.2 0 ti.cpu
      bprio := assignInt r.2 1 ti.bprio
      cprio := assignInt r.2 2 ti.cprio
      policy := assignStr r.2 3 ti.policy
      policyDetails := assignStr r.2 4 ti.policyDetails },
    4 ≤ r.1 ∧ r.1 ≤ 5)

/-- `collect_statistics`, which has six conversions. -/
def collectStatistics (ti : ThreadInfo) (buf : List Char) : ThreadInfo × Bool :=
  let r := sscanf [.lu, .lu, .lu, .lu, .llu, .d] buf
  ({ ti with
      nrInbandsw := assignNat r.2 0 ti.nrInbandsw
      nrCtxsw := assignNat r.2 1 ti.nrCtxsw
      nrSyscalls := assignNat r.2 2 ti.nrSyscalls
      nrRwakeups := assignNat r.2 3 ti.nrRwakeups
      cpuTime := assignNat r.2 4 ti.cpuTime
      percentCpu := assignInt r.2 5 ti.percentCpu },
    r.1 = 5)

/-- `collect_state_info`. -/
def collectStateInfo (ti : ThreadInfo) (buf : List Char) : ThreadInfo × Bool :=
  let r := sscanf [.x] buf
  ({ ti with state := assignNat r.2 0 ti.state }, r.1 = 1)

/-- `collect_pid`. -/
def collectPid (ti : ThreadInfo) (buf : List Char) : ThreadInfo × Bool :=
  let r := sscanf [.d] buf
  ({ ti with pid := assignInt r.2 0 ti.pid }, r.1 = 1)

/-- `collect_timeout`. -/
def collectTimeout (ti : ThreadInfo) (buf : List Char) : ThreadInfo × Bool :=
  let r := sscanf [.llu] buf
  ({ ti with timeout := assignNat r.2 0 ti.timeout }, r.1 = 1)

/-- `collect_wchan`. -/
def collectWchan (ti : ThreadInfo) (buf : List Char) : ThreadInfo × Bool :=
  let r := sscanf [.ms] buf
  ({ ti with wchan := assignStr r.2 0 ti.wchan }, r.1 = 1)

/-- `struct collect_handler`. -/
inductive Handler
  | sched | stats | state | pid | timeout | wchan
  deriving DecidableEq, Repr

def Handler.handle : Handler → ThreadInfo → List Char → ThreadInfo × Bool
  | .sched => collectSchedInfo
  | .stats => collectStatistics
  | .state => collectStateInfo
  | .pid => collectPid
  | .timeout => collectTimeout
  | .wchan => collectWchan

/-- `collect_handlers`. -/
def collectHandlers : List (String × Handler) :=
  [("sched", .sched), ("stats", .stats), ("state", .state), ("pid", .pid), ("timeout", .timeout),
    ("wchan", .wchan)]

/-- The type flag of `nftw`. -/
inductive TypeFlag
  | file | directory | other
  deriving DecidableEq, Repr

/-- What `nftw` presents: the last component of the path, the name of the directory it is in,
and for a file what can be read from it, if anything. -/
structure File where
  base : String
  dirname : String
  typeflag : TypeFlag
  level : ℕ
  size : ℕ
  content : Option (List Char)
  deriving DecidableEq, Repr

/-- The entries, their links, the head of the list and the number of entries, the entries
allocated so far and the hash table. -/
structure State where
  info : ℕ → ThreadInfo
  next : ℕ → Option ℕ
  threadList : Option ℕ
  threadNr : ℕ
  brk : ℕ
  table : List (String × ℕ)

/-- Before the walk. -/
def State.initial : State := ⟨fun _ => .zero "", fun _ => none, none, 0, 0, []⟩

/-- The buffer after `fgets`: it stops behind the first newline. -/
def fgetsLine (n : ℕ) (content : List Char) : Option (List Char) :=
  let text := content.take (n - 1)
  let line := text.takeWhile (· ≠ '\n') ++ (text.dropWhile (· ≠ '\n')).take 1
  if line = [] ∧ n ≠ 1 then none else some line

/-- The text in front of the last newline, if there is one. -/
def cutNewline (buf : List Char) : List Char :=
  if '\n' ∈ buf then (buf.reverse.dropWhile (· ≠ '\n')).tail.reverse else buf

/-- What `scan_thread` passes to the handler. -/
def readBuf (f : File) : Option (List Char) :=
  match f.content with
  | none => none
  | some content => (fgetsLine f.size content).map fun buf => cutNewline (cString buf)

/-- What `scan_thread` returns. -/
inductive Action
  | continue | skipSubtree
  deriving DecidableEq, Repr

/-- `hsearch` with `ENTER`, whose failure goes unnoticed. -/
def hsearchEnter (cap : ℕ) (table : List (String × ℕ)) (key : String) (data : ℕ) :
    List (String × ℕ) :=
  if table.length < cap then table ++ [(key, data)] else table

/-- The entry of a thread, which may be a new one. -/
def findEntry (cap : ℕ) (s : State) (name : String) : State × ℕ :=
  match s.table.lookup name with
  | some ti => (s, ti)
  | none =>
    ({ info := Function.update s.info s.brk (.zero name)
       next := Function.update s.next s.brk s.threadList
       threadList := some s.brk
       threadNr := s.threadNr + 1
       brk := s.brk + 1
       table := hsearchEnter cap s.table name s.brk }, s.brk)

/-- `scan_thread`. -/
def scanThread (cap : ℕ) (s : State) (f : File) : State × Action :=
  if f.typeflag = .directory ∧ f.base = "clone" then (s, .skipSubtree)
  else if f.typeflag ≠ .file ∨ f.level ≠ 2 ∨ f.size = 0 then (s, .continue)
  else match collectHandlers.lookup f.base with
    | none => (s, .continue)
    | some h =>
      let r := findEntry cap s f.dirname
      let ti := r.1.info r.2
      let res := match readBuf f with
        | none => (ti, false)
        | some buf => h.handle ti buf
      ({ r.1 with info := Function.update r.1.info r.2 { res.1 with parseOk := res.2 } }, .continue)

/-- The calls of `nftw`, one after the other. -/
def scanAll (cap : ℕ) (s : State) (files : List File) : State :=
  files.foldl (fun s f => (scanThread cap s f).1) s

/-- `SORT_REVERSE`. -/
def sortReverse : ℕ := 128

/-- Conversions to `int`, and to `long` and `long long`. -/
def int (x : ℤ) : ℤ := x.bmod (2 ^ 32)
def long (x : ℤ) : ℤ := x.bmod (2 ^ 64)

/-- `sort_key & ~SORT_REVERSE`. -/
def sortField (sortKey : ℕ) : ℕ := sortKey - (sortKey &&& sortReverse)

/-- `compare_info`. -/
def compareInfo (sortKey : ℕ) (til tir : ThreadInfo) : ℤ :=
  let ret := match sortField sortKey with
    | 1 => int (til.percentCpu - tir.percentCpu)
    | 2 => int (long (long til.nrInbandsw - long tir.nrInbandsw))
    | 8 => int (long (long til.nrCtxsw - long tir.nrCtxsw))
    | 16 => int (long (long til.nrRwakeups - long tir.nrRwakeups))
    | 4 => int (long (long til.cpuTime - long tir.cpuTime))
    | _ => int (til.pid - tir.pid)
  if sortKey &&& sortReverse ≠ 0 then int (-ret) else ret

/-- `sort_thread_info`, with what `qsort` does to the pointers. -/
def sortThreadInfo (qsort : (ℕ → ℕ → ℤ) → List ℕ → List ℕ) (sortKey : ℕ) (s : State) : State :=
  if s.threadNr = 0 then s
  else
    let sarray := (walk s.next s.threadNr s.threadList).filter fun ti => (s.info ti).parseOk
    if 0 < sarray.length then
      let sorted := qsort (fun l r => compareInfo sortKey (s.info l) (s.info r)) sarray
      let r := relink s.next none none sorted
      { s with next := r.1, threadList := r.2, threadNr := sarray.length }
    else { s with threadList := none, threadNr := sarray.length }

end Libevl.EvlPs
