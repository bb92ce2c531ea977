import Libevl.EvlPs
import Mathlib.Data.Finset.Lattice.Basic
import Mathlib.Data.Finset.Max

/-!
# Lists of CPUs

The kernel writes a set of CPUs as numbers and ranges of numbers with commas between
them, in one line. `parse_cpu_list` of latmus and of the tests reads such a file.
`build_cpu_mask` of evl ps reads a similar list from the command line, where a bound
of a range may be missing, and refuses numbers of CPUs that do not exist. From the
sets, latmus and the tests pick the CPU to run on.
-/
namespace Libevl.CpuList
open EvlCheck EvlPs

/-- `CPU_SETSIZE`. -/
def cpuSetsize : ℕ := 1024

/-- `CPU_SET`, which does nothing out of range. -/
def cpuSet (cpu : ℤ) (s : Finset ℕ) : Finset ℕ :=
  if 0 ≤ cpu ∧ cpu < cpuSetsize then insert cpu.toNat s else s

/-- So many turns of a loop over CPUs. -/
def setLoop : ℕ → ℤ → Finset ℕ → Finset ℕ
  | 0, _, s => s
  | n + 1, cpu, s => setLoop n (cpu + 1) (cpuSet cpu s)

/-- `for (cpu = start; cpu <= end; cpu++) CPU_SET(cpu, cpuset)`. -/
def setRange (start stop : ℤ) (s : Finset ℕ) : Finset ℕ :=
  setLoop (stop + 1 - start).toNat start s

/-- `atoi`. -/
def atoi (s : List Char) : ℤ :=
  match scanNumber 10 (s.dropWhile isspace) with
  | none => 0
  | some (neg, v, _) => (toLong neg v).bmod (2 ^ 32)

/-- What `strtok_r` returns one after the other. -/
def strtoks (delim : Char) (s : List Char) : List (List Char) :=
  (s.splitOn delim).filter (· ≠ [])

/-- The body of the loop of `parse_cpu_list`. -/
def addRange (s : Finset ℕ) (range : List Char) : Finset ℕ :=
  if range.head? = some '\n' then s
  else match strtoks '-' range with
    | [] => s
    | [id] => setRange (atoi id) (atoi id) s
    | id :: id' :: _ => setRange (atoi id) (atoi id') s

/-- `parse_cpu_list`, of a file that may not be there. -/
def parseCpuList : Option (List Char) → Finset ℕ
  | none => ∅
  | some text =>
    match buffers text with
    | [] => ∅
    | buf :: _ => (strtoks ',' buf).foldl addRange ∅

/-- `resolve_cpuid`. -/
def resolveCpuid (s : List Char) : ℤ :=
  if s.head?.any fun c => '0' ≤ c ∧ c ≤ '9' then atoi s else -1

/-- The bounds that `build_cpu_mask` takes from an element of the list. -/
def maskRange (nrCpus : ℤ) (range : List Char) : Option (ℤ × ℤ) :=
  let stop := if range.getLast? = some '-' then nrCpus - 1 else -1
  match strtoks '-' range with
  | [] => some (0, nrCpus - 1)
  | id :: ids =>
    let start := resolveCpuid id
    let (start, stop) := if range.head? = some '-' then (0, start) else (start, stop)
    let stop := match ids with
      | id' :: _ => resolveCpuid id'
      | [] => if stop < 0 then start else stop
    if start < 0 ∨ start ≥ nrCpus ∨ stop < 0 ∨ stop ≥ nrCpus then none else some (start, stop)

/-- `build_cpu_mask`, unless the program exits with an error. -/
def buildCpuMask (nrCpus : ℤ) (cpuList : List Char) : Option (Finset ℕ) :=
  (strtoks ',' cpuList).foldlM (fun s range =>
    if range.head? = some '\n' then some s
    else (maskRange nrCpus range).map fun (start, stop) => setRange start stop s) ∅

/-- The first CPU of a set, as a loop up to `CPU_SETSIZE` finds it. -/
def firstCpu (s : Finset ℕ) : Option ℕ := (List.range cpuSetsize).find? (· ∈ s)

/-- From the label `pick_isolated` on. -/
def pickIsolated (isolated : Finset ℕ) (cpu current : ℤ) : ℤ :=
  match firstCpu isolated with
  | some c => c
  | none => if cpu < 0 then current else cpu

/-- From the label `pick_oob` on. -/
def pickOob (isolated oob : Finset ℕ) (cpu current : ℤ) : ℤ :=
  match firstCpu oob with
  | some c => c
  | none => pickIsolated isolated cpu current

/-- Where nobody asked for a CPU. -/
def pickDefault (isolated oob : Finset ℕ) (inbandTest : Bool) (cpu current : ℤ) : ℤ :=
  if inbandTest then pickIsolated isolated cpu current
  else match firstCpu (isolated ∩ oob) with
    | some c => c
    | none => pickOob isolated oob cpu current

/-- `CPU_ISSET`. -/
def cpuIsset (cpu : ℤ) (s : Finset ℕ) : Bool := 0 ≤ cpu ∧ cpu < cpuSetsize ∧ cpu.toNat ∈ s

/-- The loop of `pick_test_cpu` that looks for an online CPU. -/
def nextOnline (online : Finset ℕ) (cpu : ℤ) : ℤ :=
  if cpuIsset cpu online then cpu
  else if cpu + 1 < cpuSetsize then nextOnline online (cpu + 1)
  else cpu + 1
termination_by (cpuSetsize - cpu).toNat

/-- `pick_test_cpu`: the CPU, and what is stored into `*isolated`. -/
def pickTestCpu (online isolated oob : Finset ℕ) (hintCpu : ℤ) (inbandTest : Bool)
    (current : ℤ) : ℤ × Bool :=
  let cpu :=
    if 0 ≤ hintCpu then
      let cpu := nextOnline online hintCpu
      if inbandTest = false ∧ cpuIsset cpu oob = false then pickOob isolated oob cpu current
      else cpu
    else pickDefault isolated oob inbandTest hintCpu current
  (cpu, cpuIsset cpu isolated)

/-- `determine_responder_cpu`: `responder_cpu`, and whether its state becomes `EVL_CPU_ISOL`. -/
def determineResponderCpu (isolated oob : Finset ℕ) (responderCpu : ℤ) (forceCpu : Bool)
    (inbandTest : Bool) (current : ℤ) : ℤ × Bool :=
  let cpu :=
    if 0 ≤ responderCpu then
      if inbandTest = false ∧ cpuIsset responderCpu oob = false then
        pickOob isolated oob responderCpu current
      else responderCpu
    else if forceCpu then responderCpu
    else pickDefault isolated oob inbandTest responderCpu current
  (cpu, cpuIsset cpu isolated)

section Numbers

variable {c : ℕ} {s : Finset ℕ} {start stop : ℤ}

theorem mem_cpuSet {cpu : ℤ} :
    c ∈ cpuSet cpu s ↔ c ∈ s ∨ (c < cpuSetsize ∧ (c : ℤ) = cpu) := by
  unfold cpuSet
  split_ifs with h
  · rw [Finset.mem_insert, or_comm]
    refine or_congr_right ?_
    omega
  · have hno : ¬ (c < cpuSetsize ∧ (c : ℤ) = cpu) := by omega
    rw [or_iff_left hno]

theorem mem_setLoop {n : ℕ} :
    c ∈ setLoop n start s ↔ c ∈ s ∨ (c < cpuSetsize ∧ start ≤ c ∧ (c : ℤ) < start + n) := by
  induction n generalizing start s with
  | zero =>
    have hno : ¬ (c < cpuSetsize ∧ start ≤ c ∧ (c : ℤ) < start + (0 : ℕ)) := by omega
    rw [or_iff_left hno]
    rfl
  | succ n ih =>
    rw [setLoop, ih, mem_cpuSet, or_assoc]
    refine or_congr_right ?_
    push_cast
    omega

/-- The loop sets the CPUs of the range. -/
theorem mem_setRange :
    c ∈ setRange start stop s ↔ c ∈ s ∨ (c < cpuSetsize ∧ start ≤ c ∧ (c : ℤ) ≤ stop) := by
  rw [setRange, mem_setLoop]
  refine or_congr_right ?_
  omega

/-- The digits of a number. -/
def decimal (n : ℕ) : List Char := Nat.toDigits 10 n

theorem isDigit_of_mem {n : ℕ} {d : Char} (h : d ∈ decimal n) : '0' ≤ d ∧ d ≤ '9' := by
  have := Nat.isDigit_of_mem_toDigits (by decide) (by decide) h
  simpa [Char.isDigit, Char.le_def] using this

theorem decimal_ne_nil (n : ℕ) : decimal n ≠ [] := Nat.toDigits_ne_nil

theorem notMem_decimal {n : ℕ} {d : Char} (h : ¬ ('0' ≤ d ∧ d ≤ '9')) : d ∉ decimal n :=
  fun hmem => h (isDigit_of_mem hmem)

theorem digitVal_of_digit {d : Char} (h : '0' ≤ d ∧ d ≤ '9') :
    digitVal d = d.toNat - '0'.toNat ∧ digitVal d < 10 := by
  have h₁ : (48 : ℕ) ≤ d.toNat := h.1
  have h₂ : d.toNat ≤ 57 := h.2
  rw [digitVal, if_pos h]
  exact ⟨rfl, by omega⟩

theorem scanDigits_append {ds rest : List Char} (acc : ℕ) (hds : ∀ d ∈ ds, '0' ≤ d ∧ d ≤ '9')
    (hrest : ∀ d ∈ rest.head?, ¬ digitVal d < 10) :
    scanDigits 10 acc (ds ++ rest) = (Nat.ofDigitChars 10 ds acc, rest) := by
  induction ds generalizing acc with
  | nil =>
    cases rest with
    | nil => rfl
    | cons d rest =>
      rw [List.nil_append, scanDigits, if_neg (hrest d rfl)]
      rfl
  | cons d ds ih =>
    obtain ⟨hval, hlt⟩ := digitVal_of_digit (hds d List.mem_cons_self)
    rw [List.cons_append, scanDigits, if_pos hlt, ih _ fun x hx => hds x (List.mem_cons_of_mem d hx),
      Nat.ofDigitChars_cons, ← hval, Nat.mul_comm]

/-- A number is read up to what follows it. -/
theorem atoi_decimal {n : ℕ} {rest : List Char} (hn : n < 2 ^ 31)
    (hrest : ∀ d ∈ rest.head?, ¬ digitVal d < 10) : atoi (decimal n ++ rest) = n := by
  obtain ⟨d, ds, hdec⟩ := List.exists_cons_of_ne_nil (decimal_ne_nil n)
  have hd : '0' ≤ d ∧ d ≤ '9' := isDigit_of_mem (n := n) (by simp [hdec])
  have h₁ : (48 : ℕ) ≤ d.toNat := hd.1
  have h₂ : d.toNat ≤ 57 := hd.2
  have hblank : isspace d = false := by
    have h32 : d ≠ ' ' := fun h => by rw [h] at h₁; exact absurd h₁ (by decide)
    have h13 : ¬ d ≤ '\r' := fun h => by
      have : d.toNat ≤ 13 := h
      omega
    simp [isspace, h32, h13]
  have hsign : d ≠ '-' ∧ d ≠ '+' :=
    ⟨fun h => by rw [h] at h₁; exact absurd h₁ (by decide),
      fun h => by rw [h] at h₁; exact absurd h₁ (by decide)⟩
  have hscan : scanDigits 10 0 (decimal n ++ rest) = (n, rest) := by
    rw [scanDigits_append 0 (fun d h => isDigit_of_mem h) hrest, decimal,
      Nat.ofDigitChars_ten_toDigits]
  have hhead : decimal n ++ rest = d :: (ds ++ rest) := by rw [hdec, List.cons_append]
  have hskip : (decimal n ++ rest).dropWhile isspace = decimal n ++ rest := by
    rw [hhead, List.dropWhile_cons_of_neg (by simp [hblank])]
  have hnumber : scanNumber 10 (decimal n ++ rest) = some (false, n, rest) := by
    unfold scanNumber
    have hno : (decimal n ++ rest).head? = some d := by rw [hhead]; rfl
    simp only [hno, Option.some.injEq, hsign, or_self, if_false, Nat.reduceEqDiff, false_and,
      hscan, false_or]
    have hshort : rest.length < (decimal n ++ rest).length := by
      rw [hdec, List.length_append, List.length_cons]
      omega
    rw [if_pos hshort]
    simp
  rw [atoi, hskip, hnumber]
  simp only [toLong, Bool.false_eq_true, if_false]
  rw [min_eq_left (by omega), Int.bmod_eq_of_le (by omega) (by omega)]

end Numbers

section Items

/-- An element of a list: a CPU, or a range of which a bound may be missing. -/
inductive Item
  | one (n : ℕ)
  | span (lo hi : Option ℕ)
  deriving DecidableEq, Repr

/-- A bound as it is written. -/
def boundText (b : Option ℕ) : List Char := b.elim [] decimal

def Item.text : Item → List Char
  | .one n => decimal n
  | .span lo hi => boundText lo ++ '-' :: boundText hi

/-- The CPUs of an element, of so many. -/
def Item.Covers (nrCpus : ℕ) : Item → ℕ → Prop
  | .one n, c => c = n
  | .span lo hi, c => lo.getD 0 ≤ c ∧ c ≤ hi.getD (nrCpus - 1)

/-- All numbers are below some bound. -/
def Item.Below (bound : ℕ) : Item → Prop
  | .one n => n < bound
  | .span lo hi => (∀ a ∈ lo, a < bound) ∧ ∀ b ∈ hi, b < bound

/-- A CPU, or a range with both its bounds. -/
def Item.Closed : Item → Prop
  | .one _ => True
  | .span lo hi => lo.isSome ∧ hi.isSome

/-- A list in one line. -/
def listText (items : List Item) : List Char := [','].intercalate (items.map Item.text)

variable {item : Item} {items : List Item} {e : List Char} {s : Finset ℕ} {c nrCpus : ℕ}

theorem not_digit_dash : ¬ ('0' ≤ '-' ∧ '-' ≤ '9') := by decide

theorem not_digit_comma : ¬ ('0' ≤ ',' ∧ ',' ≤ '9') := by decide

theorem notMem_boundText {d : Char} (h : ¬ ('0' ≤ d ∧ d ≤ '9')) (b : Option ℕ) :
    d ∉ boundText b := by
  cases b with
  | none => simp [boundText]
  | some n => exact notMem_decimal h

theorem comma_notMem_text (item : Item) : ',' ∉ item.text := by
  cases item with
  | one n => exact notMem_decimal not_digit_comma
  | span lo hi =>
    simp only [Item.text, List.mem_append, List.mem_cons, not_or]
    exact ⟨notMem_boundText not_digit_comma lo, by decide, notMem_boundText not_digit_comma hi⟩

theorem text_ne_nil (item : Item) : item.text ≠ [] := by
  cases item with
  | one n => exact decimal_ne_nil n
  | span lo hi => simp [Item.text]

/-- The tokens of parts without the delimiter are those that are not empty. -/
theorem strtoks_intercalate {d : Char} {parts : List (List Char)} (hne : parts ≠ [])
    (h : ∀ part ∈ parts, d ∉ part) : strtoks d ([d].intercalate parts) = parts.filter (· ≠ []) := by
  rw [strtoks, List.splitOn_intercalate d h hne]

theorem strtoks_one {n : ℕ} (he : '-' ∉ e) : strtoks '-' (decimal n ++ e) = [decimal n ++ e] := by
  have hpart : '-' ∉ decimal n ++ e := by
    rw [List.mem_append, not_or]
    exact ⟨notMem_decimal not_digit_dash, he⟩
  have hne : decimal n ++ e ≠ [] := by simp [decimal_ne_nil]
  have := strtoks_intercalate (List.cons_ne_nil (decimal n ++ e) []) (d := '-') (by simpa using hpart)
  simpa [hne] using this

theorem strtoks_span (lo hi : Option ℕ) (he : '-' ∉ e) :
    strtoks '-' (boundText lo ++ '-' :: (boundText hi ++ e)) =
      [boundText lo, boundText hi ++ e].filter (· ≠ []) := by
  have hlast : '-' ∉ boundText hi ++ e := by
    rw [List.mem_append, not_or]
    exact ⟨notMem_boundText not_digit_dash hi, he⟩
  rw [← strtoks_intercalate (List.cons_ne_nil _ _) (d := '-') (by
    simpa using ⟨notMem_boundText not_digit_dash lo, by simpa using hlast⟩)]
  simp [List.intercalate_cons_cons]

/-- What may follow the last element of a line. -/
def LineEnd (e : List Char) : Prop := e = [] ∨ e = ['\n']

theorem LineEnd.notMem (he : LineEnd e) {d : Char} (hd : d ≠ '\n') : d ∉ e := by
  rcases he with rfl | rfl <;> simp [hd]

theorem LineEnd.stops (he : LineEnd e) : ∀ d ∈ e.head?, ¬ digitVal d < 10 := by
  rcases he with rfl | rfl
  · simp
  · intro d hd
    cases hd
    decide

theorem head?_decimal_ne {n : ℕ} {d : Char} (h : ¬ ('0' ≤ d ∧ d ≤ '9')) :
    (decimal n ++ e).head? ≠ some d := by
  obtain ⟨x, ds, hdec⟩ := List.exists_cons_of_ne_nil (decimal_ne_nil n)
  rw [hdec, List.cons_append, List.head?_cons, ne_eq, Option.some.injEq]
  rintro rfl
  exact h (isDigit_of_mem (n := n) (by simp [hdec]))

/-- An element adds its CPUs. -/
theorem mem_addRange (hc : item.Closed) (hb : item.Below (2 ^ 31 - 1)) (he : LineEnd e) :
    c ∈ addRange s (item.text ++ e) ↔ c ∈ s ∨ (c < cpuSetsize ∧ item.Covers nrCpus c) := by
  have hnl : ¬ ('0' ≤ '\n' ∧ '\n' ≤ '9') := by decide
  have hdash : '-' ∉ e := he.notMem (by decide)
  cases item with
  | one n =>
    rw [addRange, Item.text, if_neg (head?_decimal_ne hnl), strtoks_one hdash]
    dsimp only
    have hn : n < 2 ^ 31 - 1 := hb
    rw [atoi_decimal (by omega) he.stops, mem_setRange]
    refine or_congr_right (and_congr_right fun _ => ?_)
    rw [Item.Covers]
    omega
  | span lo hi =>
    obtain ⟨a, rfl⟩ := Option.isSome_iff_exists.mp hc.1
    obtain ⟨b, rfl⟩ := Option.isSome_iff_exists.mp hc.2
    have hhead : (Item.text (.span (some a) (some b)) ++ e).head? ≠ some '\n' := by
      rw [Item.text, List.append_assoc]
      exact head?_decimal_ne hnl
    have htoks : strtoks '-' (Item.text (.span (some a) (some b)) ++ e) =
        [decimal a, decimal b ++ e] := by
      have := strtoks_span (some a) (some b) hdash
      rw [Item.text, List.append_assoc, List.cons_append, this]
      simp [boundText, decimal_ne_nil]
    have hlo : a < 2 ^ 31 - 1 := hb.1 a rfl
    have hhi : b < 2 ^ 31 - 1 := hb.2 b rfl
    have ha : atoi (decimal a) = a := by
      have := @atoi_decimal a [] (by omega) (show LineEnd [] from .inl rfl).stops
      simpa using this
    rw [addRange, if_neg hhead, htoks]
    dsimp only
    rw [ha, atoi_decimal (by omega) he.stops, mem_setRange]
    refine or_congr_right (and_congr_right fun _ => ?_)
    rw [Item.Covers]
    simp only [Option.getD_some]
    omega

theorem mem_foldl_addRange (hc : ∀ item ∈ items, item.Closed)
    (hb : ∀ item ∈ items, item.Below (2 ^ 31 - 1)) :
    c ∈ (items.map Item.text).foldl addRange s ↔
      c ∈ s ∨ (c < cpuSetsize ∧ ∃ item ∈ items, item.Covers nrCpus c) := by
  induction items generalizing s with
  | nil => simp
  | cons item items ih =>
    have hhead := @mem_addRange item [] s c nrCpus (hc item List.mem_cons_self)
      (hb item List.mem_cons_self) (.inl rfl)
    rw [List.append_nil] at hhead
    rw [List.map_cons, List.foldl_cons, ih (fun i hi => hc i (List.mem_cons_of_mem item hi))
      (fun i hi => hb i (List.mem_cons_of_mem item hi)), hhead, or_assoc, ← and_or_left,
      List.exists_mem_cons_iff]

theorem listText_concat (items : List Item) (last : Item) (e : List Char) :
    listText (items ++ [last]) ++ e =
      [','].intercalate (items.map Item.text ++ [last.text ++ e]) := by
  unfold listText
  induction items with
  | nil => simp
  | cons item items ih =>
    cases items with
    | nil => simp [List.intercalate_cons_cons]
    | cons item' items =>
      simp only [List.cons_append, List.map_cons, List.intercalate_cons_cons, List.append_assoc]
        at ih ⊢
      rw [ih]

/-- A line which fits the buffer is read whole. -/
theorem fgets_line {line rest : List Char} {left : ℕ} (hline : '\n' ∉ line)
    (hlen : line.length < left) : (fgets left (line ++ '\n' :: rest)).head? = some (line ++ ['\n']) := by
  induction line generalizing left with
  | nil => simp [fgets]
  | cons d line ih =>
    rw [List.mem_cons, not_or] at hline
    rw [List.length_cons] at hlen
    have hno : ¬ (d = '\n' ∨ left = 1) := by
      rintro (h | h)
      · exact hline.1 h.symm
      · omega
    have hrest := @ih (left - 1) hline.2 (by omega)
    rw [List.cons_append, fgets, if_neg hno]
    cases hlines : fgets (left - 1) (line ++ '\n' :: rest) with
    | nil => simp [hlines] at hrest
    | cons l ls =>
      rw [hlines, List.head?_cons, Option.some.injEq] at hrest
      rw [consLine, hrest]
      rfl

theorem plain_notMem_listText {d : Char} (hd : ¬ ('0' ≤ d ∧ d ≤ '9')) (hdash : d ≠ '-')
    (hcomma : d ≠ ',') : d ∉ listText items := by
  have htext : ∀ item : Item, d ∉ item.text := by
    intro item
    cases item with
    | one n => exact notMem_decimal hd
    | span lo hi => simp [Item.text, notMem_boundText hd, hdash]
  unfold listText
  induction items with
  | nil => simp
  | cons item items ih =>
    cases items with
    | nil => simpa using htext item
    | cons item' items =>
      rw [List.map_cons, List.map_cons, List.intercalate_cons_cons]
      simp only [List.mem_append, List.mem_singleton, not_or]
      exact ⟨⟨htext item, hcomma⟩, ih⟩

/-- From a file with such a list, exactly the CPUs that were written are read. In a range up to
`INT_MAX`, the counter of the loop overflows. -/
theorem mem_parseCpuList (hc : ∀ item ∈ items, item.Closed)
    (hb : ∀ item ∈ items, item.Below (2 ^ 31 - 1)) (hlen : (listText items).length < bufsiz - 1)
    (rest : List Char) :
    c ∈ parseCpuList (some (listText items ++ '\n' :: rest)) ↔
      c < cpuSetsize ∧ ∃ item ∈ items, item.Covers nrCpus c := by
  have hline : '\n' ∉ listText items :=
    plain_notMem_listText (by decide) (by decide) (by decide)
  have hnul : '\x00' ∉ listText items ++ ['\n'] := by
    rw [List.mem_append, not_or]
    exact ⟨plain_notMem_listText (by decide) (by decide) (by decide), by decide⟩
  have hbuf : (buffers (listText items ++ '\n' :: rest)).head? = some (listText items ++ ['\n']) := by
    rw [buffers, List.head?_map, fgets_line hline hlen, Option.map_some, cString,
      List.takeWhile_eq_self_iff.mpr]
    intro d hd
    exact decide_eq_true fun h => hnul (h ▸ hd)
  have hrun : parseCpuList (some (listText items ++ '\n' :: rest)) =
      (strtoks ',' (listText items ++ ['\n'])).foldl addRange ∅ := by
    rw [parseCpuList]
    cases hb : buffers (listText items ++ '\n' :: rest) with
    | nil => simp [hb] at hbuf
    | cons l ls =>
      rw [hb, List.head?_cons, Option.some.injEq] at hbuf
      rw [hbuf]
  rw [hrun]
  rcases List.eq_nil_or_concat items with rfl | ⟨init, last, rfl⟩
  · have hempty : (strtoks ',' (listText [] ++ ['\n'])).foldl addRange ∅ = ∅ := by decide
    simp [hempty]
  · rw [List.concat_eq_append] at *
    have hne : init.map Item.text ++ [last.text ++ ['\n']] ≠ [] := by simp
    have hparts : ∀ part ∈ init.map Item.text ++ [last.text ++ ['\n']], ',' ∉ part := by
      intro part hpart
      rcases List.mem_append.mp hpart with h | h
      · obtain ⟨item, -, rfl⟩ := List.mem_map.mp h
        exact comma_notMem_text item
      · rw [List.mem_singleton.mp h, List.mem_append, not_or]
        exact ⟨comma_notMem_text last, by decide⟩
    have hall : (init.map Item.text ++ [last.text ++ ['\n']]).filter (· ≠ []) =
        init.map Item.text ++ [last.text ++ ['\n']] := by
      refine List.filter_eq_self.mpr fun part hpart => decide_eq_true ?_
      rcases List.mem_append.mp hpart with h | h
      · obtain ⟨item, -, rfl⟩ := List.mem_map.mp h
        exact text_ne_nil item
      · simp [List.mem_singleton.mp h]
    have hlast := List.mem_append_right init (List.mem_singleton_self last)
    rw [listText_concat, strtoks_intercalate hne hparts, hall, List.foldl_append, List.foldl_cons,
      List.foldl_nil, @mem_addRange last _ _ c nrCpus (hc last hlast) (hb last hlast) (.inr rfl),
      @mem_foldl_addRange init ∅ c nrCpus (fun i hi => hc i (List.mem_append_left _ hi))
        (fun i hi => hb i (List.mem_append_left _ hi))]
    simp only [Finset.notMem_empty, false_or, ← and_or_left, List.mem_append, List.mem_singleton]
    refine and_congr_right fun _ => ⟨?_, ?_⟩
    · rintro (⟨i, hi, hcov⟩ | hcov)
      · exact ⟨i, .inl hi, hcov⟩
      · exact ⟨last, .inr rfl, hcov⟩
    · rintro ⟨i, hi | rfl, hcov⟩
      · exact .inl ⟨i, hi, hcov⟩
      · exact .inr hcov

/-- `0-3,7` for the CPUs 0 to 3 and 7. -/
theorem mem_parseCpuList_pair :
    7 ∈ parseCpuList (some ['0', '-', '3', ',', '7', '\n']) ∧
      4 ∉ parseCpuList (some ['0', '-', '3', ',', '7', '\n']) := by
  have h := fun c => @mem_parseCpuList [.span (some 0) (some 3), .one 7] c 8 (by simp [Item.Closed])
    (by simp [Item.Below]) (by decide) []
  refine ⟨(h 7).mpr ⟨by decide, .one 7, by simp, rfl⟩, fun hmem => ?_⟩
  obtain ⟨-, item, hitem, hcov⟩ := (h 4).mp hmem
  rcases List.mem_pair.mp hitem with rfl | rfl
  · exact absurd (show 4 ≤ 3 from hcov.2) (by decide)
  · exact absurd (show 4 = 7 from hcov) (by decide)

end Items

section Mask

variable {item : Item} {items : List Item} {s : Finset ℕ} {c nrCpus n : ℕ}

/-- The first and the last CPU of an element. -/
def Item.bounds (nrCpus : ℕ) : Item → ℕ × ℕ
  | .one n => (n, n)
  | .span lo hi => (lo.getD 0, hi.getD (nrCpus - 1))

theorem covers_iff_bounds :
    item.Covers nrCpus c ↔ (item.bounds nrCpus).1 ≤ c ∧ c ≤ (item.bounds nrCpus).2 := by
  cases item with
  | one n =>
    simp only [Item.Covers, Item.bounds]
    omega
  | span lo hi => rfl

theorem resolveCpuid_decimal (hn : n < 2 ^ 31) : resolveCpuid (decimal n) = n := by
  obtain ⟨d, ds, hdec⟩ := List.exists_cons_of_ne_nil (decimal_ne_nil n)
  have hd : '0' ≤ d ∧ d ≤ '9' := isDigit_of_mem (n := n) (by simp [hdec])
  have hatoi := atoi_decimal hn (show LineEnd [] from .inl rfl).stops
  rw [List.append_nil] at hatoi
  rw [resolveCpuid, if_pos (by simpa [hdec] using hd), hatoi]

theorem getLast?_decimal_ne {e : List Char} : (e ++ decimal n).getLast? ≠ some '-' := by
  intro h
  rw [List.getLast?_append_of_ne_nil _ (decimal_ne_nil n)] at h
  exact notMem_decimal not_digit_dash (List.mem_of_getLast? h)

/-- An element is refused exactly if it has a number which is none of a CPU. -/
theorem maskRange_text (hnr : 0 < nrCpus) (hb : item.Below (2 ^ 31)) :
    (item.Below nrCpus → maskRange nrCpus item.text =
      some (((item.bounds nrCpus).1 : ℤ), ((item.bounds nrCpus).2 : ℤ))) ∧
    (¬ item.Below nrCpus → maskRange nrCpus item.text = none) := by
  have hdash : '-' ∉ ([] : List Char) := List.not_mem_nil
  have hneg : (-1 : ℤ) < 0 := by decide
  cases item with
  | one n =>
    have htoks := strtoks_one (n := n) hdash
    have hlast := @getLast?_decimal_ne n []
    have hhead := @head?_decimal_ne [] n '-' not_digit_dash
    rw [List.append_nil] at htoks hhead
    rw [List.nil_append] at hlast
    simp only [maskRange, Item.text, htoks, hlast, hhead, if_false, resolveCpuid_decimal hb,
      Item.Below, Item.bounds, hneg, if_true]
    exact ⟨fun h => if_neg (by omega), fun h => if_pos (by omega)⟩
  | span lo hi =>
    have htoks := strtoks_span lo hi hdash
    rw [List.append_nil] at htoks
    cases lo with
    | none =>
      cases hi with
      | none =>
        have hnone : strtoks '-' ['-'] = [] := by decide
        have hbelow : (Item.span none none).Below nrCpus := ⟨nofun, nofun⟩
        refine ⟨fun _ => ?_, fun h => absurd hbelow h⟩
        simp only [maskRange, Item.text, boundText, Option.elim_none, List.nil_append, hnone,
          Item.bounds, Option.getD_none, Nat.cast_zero]
        rw [Nat.cast_sub hnr, Nat.cast_one]
      | some b =>
        have hlast := @getLast?_decimal_ne b ['-']
        rw [List.singleton_append] at hlast
        have hb' : b < 2 ^ 31 := hb.2 b rfl
        have hcond : (Item.span none (some b)).Below nrCpus ↔ b < nrCpus := by simp [Item.Below]
        have htoks' : strtoks '-' ('-' :: decimal b) = [decimal b] := by
          simpa [boundText, decimal_ne_nil] using htoks
        have hnonneg : ¬ (b : ℤ) < 0 := by omega
        simp only [maskRange, Item.text, boundText, Option.elim_none, Option.elim_some,
          List.nil_append, htoks', hlast, if_false, List.head?_cons, if_true,
          resolveCpuid_decimal hb', hcond, Item.bounds, Option.getD_none, Option.getD_some, hnonneg,
          false_or]
        exact ⟨fun h => if_neg (by omega), fun h => if_pos (by omega)⟩
    | some a =>
      have ha : a < 2 ^ 31 := hb.1 a rfl
      cases hi with
      | none =>
        have hhead := @head?_decimal_ne ['-'] a '-' not_digit_dash
        have hcond : (Item.span (some a) none).Below nrCpus ↔ a < nrCpus := by simp [Item.Below]
        have htoks' : strtoks '-' (decimal a ++ ['-']) = [decimal a] := by
          simpa [boundText, decimal_ne_nil] using htoks
        have hnonneg : ¬ (nrCpus : ℤ) - 1 < 0 := by omega
        have hcast : ((nrCpus - 1 : ℕ) : ℤ) = nrCpus - 1 := by omega
        simp only [maskRange, Item.text, boundText, Option.elim_none, Option.elim_some, htoks',
          hhead, if_false, List.getLast?_concat, if_true, resolveCpuid_decimal ha, hcond,
          Item.bounds, Option.getD_none, Option.getD_some, hnonneg, hcast,
          false_or]
        exact ⟨fun h => if_neg (by omega), fun h => if_pos (by omega)⟩
      | some b =>
        have hb' : b < 2 ^ 31 := hb.2 b rfl
        have hlast := @getLast?_decimal_ne b (decimal a ++ ['-'])
        rw [List.append_assoc, List.singleton_append] at hlast
        have hhead := @head?_decimal_ne ('-' :: decimal b) a '-' not_digit_dash
        have hcond : (Item.span (some a) (some b)).Below nrCpus ↔ a < nrCpus ∧ b < nrCpus := by
          simp [Item.Below]
        have htoks' : strtoks '-' (decimal a ++ '-' :: decimal b) = [decimal a, decimal b] := by
          simpa [boundText, decimal_ne_nil] using htoks
        simp only [maskRange, Item.text, boundText, Option.elim_some, htoks', hhead, hlast,
          if_false, resolveCpuid_decimal ha, resolveCpuid_decimal hb', hcond, Item.bounds,
          Option.getD_some]
        exact ⟨fun h => if_neg (by omega), fun h => if_pos (by omega)⟩

/-- What an element of the list does to the mask. -/
theorem head?_text_ne (item : Item) : item.text.head? ≠ some '\n' := by
  have hnl : ¬ ('0' ≤ '\n' ∧ '\n' ≤ '9') := by decide
  cases item with
  | one n =>
    have := @head?_decimal_ne [] n '\n' hnl
    rwa [List.append_nil] at this
  | span lo hi =>
    cases lo with
    | none => simp [Item.text, boundText]
    | some a => exact head?_decimal_ne hnl

/-- The mask of a list of elements, or a refusal. -/
theorem mask_fold (hnr : 0 < nrCpus) (hb : ∀ item ∈ items, item.Below (2 ^ 31)) :
    ((∀ item ∈ items, item.Below nrCpus) →
      ∃ t, ((items.map Item.text).foldlM (fun s range =>
        if range.head? = some '\n' then some s
        else (maskRange nrCpus range).map fun (start, stop) => setRange start stop s) s) = some t ∧
        ∀ c, c ∈ t ↔ c ∈ s ∨ (c < cpuSetsize ∧ ∃ item ∈ items, item.Covers nrCpus c)) ∧
    ((¬ ∀ item ∈ items, item.Below nrCpus) →
      ((items.map Item.text).foldlM (fun s range =>
        if range.head? = some '\n' then some s
        else (maskRange nrCpus range).map fun (start, stop) => setRange start stop s) s) = none) := by
  induction items generalizing s with
  | nil => exact ⟨fun _ => ⟨s, rfl, by simp⟩, fun h => absurd (by simp) h⟩
  | cons item items ih =>
    have hrest := fun s => @ih s fun i hi => hb i (List.mem_cons_of_mem item hi)
    obtain ⟨hok, hbad⟩ := maskRange_text hnr (hb item List.mem_cons_self)
    rw [List.map_cons, List.foldlM_cons, if_neg (head?_text_ne item)]
    by_cases hhead : item.Below nrCpus
    · rw [hok hhead, Option.map_some, Option.bind_eq_bind, Option.bind_some]
      dsimp only
      simp only [List.forall_mem_cons, hhead, true_and, List.exists_mem_cons_iff]
      refine ⟨fun hall => ?_, (hrest _).2⟩
      obtain ⟨t, hrun, ht⟩ := (hrest (setRange (item.bounds nrCpus).1 (item.bounds nrCpus).2 s)).1 hall
      refine ⟨t, hrun, fun c => ?_⟩
      rw [ht, mem_setRange, or_assoc, ← and_or_left, covers_iff_bounds]
      simp only [Nat.cast_le]
    · rw [hbad hhead]
      exact ⟨fun hall => absurd (hall item List.mem_cons_self) hhead, fun _ => rfl⟩

/-- A list of CPUs and ranges is accepted exactly if all its numbers are of CPUs, and then means
the CPUs that it names; a missing bound is the first or the last CPU. -/
theorem buildCpuMask_iff (hnr : 0 < nrCpus) (hb : ∀ item ∈ items, item.Below (2 ^ 31)) :
    ((buildCpuMask nrCpus (listText items)).isSome ↔ ∀ item ∈ items, item.Below nrCpus) ∧
    ∀ t ∈ buildCpuMask nrCpus (listText items), ∀ c,
      c ∈ t ↔ c < cpuSetsize ∧ ∃ item ∈ items, item.Covers nrCpus c := by
  have htoks : strtoks ',' (listText items) = items.map Item.text := by
    cases items with
    | nil => decide
    | cons item items =>
      have hall : ((item :: items).map Item.text).filter (· ≠ []) = (item :: items).map Item.text := by
        refine List.filter_eq_self.mpr fun part hpart => decide_eq_true ?_
        obtain ⟨i, -, rfl⟩ := List.mem_map.mp hpart
        exact text_ne_nil i
      rw [listText, strtoks_intercalate (by simp), hall]
      intro part hpart
      obtain ⟨i, -, rfl⟩ := List.mem_map.mp hpart
      exact comma_notMem_text i
  obtain ⟨hok, hbad⟩ := mask_fold (s := ∅) hnr hb
  rw [buildCpuMask, htoks]
  by_cases hall : ∀ item ∈ items, item.Below nrCpus
  · obtain ⟨t, hrun, ht⟩ := hok hall
    rw [hrun]
    refine ⟨⟨fun _ => hall, fun _ => rfl⟩, fun t' ht' c => ?_⟩
    cases ht'
    rw [ht]
    simp
  · rw [hbad hall]
    exact ⟨by simp [hall], nofun⟩

/-- `-1,3` and `2-,9` on a machine with four CPUs. -/
theorem buildCpuMask_iff_four :
    (buildCpuMask 4 ['-', '1', ',', '3']).isSome ∧ buildCpuMask 4 ['2', '-', ',', '9'] = none := by
  have h₁ := (@buildCpuMask_iff [.span none (some 1), .one 3] 4 (by decide)
    (by simp [Item.Below])).1
  have h₂ := (@buildCpuMask_iff [.span (some 2) none, .one 9] 4 (by decide)
    (by simp [Item.Below])).1
  refine ⟨h₁.mpr (by simp [Item.Below]), Option.not_isSome_iff_eq_none.mp fun h => ?_⟩
  have : 9 < 4 := h₂.mp h (.one 9) (by simp)
  exact absurd this (by decide)

end Mask

section Pick

variable {online isolated oob s : Finset ℕ} {cpu current : ℤ} {inbandTest forceCpu : Bool} {c : ℕ}

theorem firstCpu_eq_none_iff : firstCpu s = none ↔ ∀ c ∈ s, cpuSetsize ≤ c := by
  simp only [firstCpu, List.find?_eq_none, List.mem_range, decide_eq_true_eq]
  exact ⟨fun h c hc => not_lt.mp fun hlt => h c hlt hc, fun h c hlt hc => absurd (h c hc) (not_le.mpr hlt)⟩

theorem firstCpu_spec (h : firstCpu s = some c) : cpuIsset c s = true := by
  have hlt := List.mem_range.mp (List.mem_of_find?_eq_some h)
  have hmem : c ∈ s := by simpa using List.find?_some h
  simpa [cpuIsset, hlt] using hmem

theorem cpuIsset_mono {t : Finset ℕ} (hst : s ⊆ t) (h : cpuIsset cpu s = true) :
    cpuIsset cpu t = true := by
  simp only [cpuIsset, decide_eq_true_eq] at h ⊢
  exact ⟨h.1, h.2.1, hst h.2.2⟩

theorem pickOob_of_nonempty (h : ∃ c ∈ oob, c < cpuSetsize) :
    cpuIsset (pickOob isolated oob cpu current) oob = true := by
  obtain ⟨c, hc, hlt⟩ := h
  unfold pickOob
  cases hfirst : firstCpu oob with
  | none => exact absurd (firstCpu_eq_none_iff.mp hfirst c hc) (not_le.mpr hlt)
  | some d => exact firstCpu_spec hfirst

theorem pickDefault_of_nonempty (h : ∃ c ∈ oob, c < cpuSetsize) :
    cpuIsset (pickDefault isolated oob false cpu current) oob = true ∧
      ((∃ c ∈ isolated ∩ oob, c < cpuSetsize) →
        cpuIsset (pickDefault isolated oob false cpu current) isolated = true) := by
  unfold pickDefault
  rw [if_neg Bool.false_ne_true]
  cases hfirst : firstCpu (isolated ∩ oob) with
  | none =>
    refine ⟨pickOob_of_nonempty h, fun ⟨c, hc, hlt⟩ => ?_⟩
    exact absurd (firstCpu_eq_none_iff.mp hfirst c hc) (not_le.mpr hlt)
  | some d =>
    have hd := firstCpu_spec hfirst
    exact ⟨cpuIsset_mono Finset.inter_subset_right hd,
      fun _ => cpuIsset_mono Finset.inter_subset_left hd⟩

/-- Out-of-band tests run on a CPU which is capable of it, if there is one, whatever CPU was asked
for; latmus treats a CPU that is forced like any other. -/
theorem picks_oob (h : ∃ c ∈ oob, c < cpuSetsize) :
    cpuIsset (pickTestCpu online isolated oob cpu false current).1 oob = true ∧
    (0 ≤ cpu ∨ forceCpu = false →
      cpuIsset (determineResponderCpu isolated oob cpu forceCpu false current).1 oob = true) ∧
    (cpu < 0 → (∃ c ∈ isolated ∩ oob, c < cpuSetsize) →
      (pickTestCpu online isolated oob cpu false current).2 = true ∧
      (determineResponderCpu isolated oob cpu false false current).2 = true) := by
  have hdefault := @pickDefault_of_nonempty isolated oob cpu current h
  refine ⟨?_, fun hcpu => ?_, fun hneg hiso => ?_⟩
  · unfold pickTestCpu
    dsimp only
    split_ifs with h₁ h₂
    · exact pickOob_of_nonempty h
    · simpa using h₂
    · exact hdefault.1
  · unfold determineResponderCpu
    dsimp only
    split_ifs with h₁ h₂ h₃
    · exact pickOob_of_nonempty h
    · simpa using h₂
    · rcases hcpu with hcpu | hcpu
      · exact absurd hcpu h₁
      · rw [hcpu] at h₃
        exact absurd h₃ Bool.false_ne_true
    · exact hdefault.1
  · unfold pickTestCpu determineResponderCpu
    simp only [not_le.mpr hneg, if_false, Bool.false_eq_true]
    exact ⟨hdefault.2 hiso, hdefault.2 hiso⟩

/-- CPUs 0 to 3 are online, 2 and 3 capable, 3 isolated. CPU 1 is asked for, or forced, or none
is asked for. -/
theorem picks_oob_four : cpuIsset (pickTestCpu {0, 1, 2, 3} {3} {2, 3} 1 false 0).1 {2, 3} = true ∧
    cpuIsset (determineResponderCpu {3} {2, 3} 1 true false 0).1 {2, 3} = true ∧
    (pickTestCpu {0, 1, 2, 3} {3} {2, 3} (-1) false 0).2 = true ∧
    (determineResponderCpu {3} {2, 3} (-1) false false 0).2 = true := by
  have hasked := @picks_oob {0, 1, 2, 3} {3} {2, 3} 1 0 true ⟨2, by decide⟩
  have hnone := @picks_oob {0, 1, 2, 3} {3} {2, 3} (-1) 0 false ⟨2, by decide⟩
  exact ⟨hasked.1, hasked.2.1 (.inl (by decide)), hnone.2.2 (by decide) ⟨3, by decide⟩⟩

theorem nextOnline_spec (h : 0 ≤ cpu) :
    (cpuIsset (nextOnline online cpu) online = true ∧ cpu ≤ nextOnline online cpu) ∨
    ((∀ c ∈ online, c < cpuSetsize → (c : ℤ) < cpu) ∧ (cpuSetsize : ℤ) ≤ nextOnline online cpu) := by
  induction cpu using nextOnline.induct online with
  | case1 cpu hset =>
    rw [nextOnline, if_pos hset]
    exact .inl ⟨hset, le_rfl⟩
  | case2 cpu hset hlt ih =>
    rw [nextOnline, if_neg hset, if_pos hlt]
    have hnot : ∀ c ∈ online, (c : ℤ) ≠ cpu := by
      rintro c hc rfl
      exact hset (by simp [cpuIsset, hc]; omega)
    rcases ih (by omega) with ⟨hon, hle⟩ | ⟨hall, hge⟩
    · exact .inl ⟨hon, by omega⟩
    · refine .inr ⟨fun c hc hc' => ?_, hge⟩
      have h₁ := hall c hc hc'
      have h₂ := hnot c hc
      omega
  | case3 cpu hset hge =>
    rw [nextOnline, if_neg hset, if_neg hge]
    refine .inr ⟨fun c hc hc' => ?_, by omega⟩
    have hne : (c : ℤ) ≠ cpu := by
      rintro rfl
      exact hset (by simp [cpuIsset, hc]; omega)
    omega

theorem pickIsolated_online (hiso : isolated ⊆ online) (hon : ∀ c ∈ online, c < cpuSetsize)
    (hcur : cpuIsset current online = true)
    (h : cpu < 0 ∨ cpuIsset cpu online = true ∨ isolated.Nonempty) :
    cpuIsset (pickIsolated isolated cpu current) online = true := by
  unfold pickIsolated
  cases hfirst : firstCpu isolated with
  | some c => exact cpuIsset_mono hiso (firstCpu_spec hfirst)
  | none =>
    dsimp only
    split_ifs with hneg
    · exact hcur
    · rcases h with h | h | ⟨c, hc⟩
      · exact absurd h hneg
      · exact h
      · exact absurd (firstCpu_eq_none_iff.mp hfirst c hc) (not_le.mpr (hon c (hiso hc)))

theorem pickOob_online (hoob : oob ⊆ online) (hiso : isolated ⊆ online)
    (hon : ∀ c ∈ online, c < cpuSetsize) (hcur : cpuIsset current online = true)
    (h : cpu < 0 ∨ cpuIsset cpu online = true ∨ oob.Nonempty ∨ isolated.Nonempty) :
    cpuIsset (pickOob isolated oob cpu current) online = true := by
  unfold pickOob
  cases hfirst : firstCpu oob with
  | some c => exact cpuIsset_mono hoob (firstCpu_spec hfirst)
  | none =>
    refine pickIsolated_online hiso hon hcur ?_
    rcases h with h | h | ⟨c, hc⟩ | h
    · exact .inl h
    · exact .inr (.inl h)
    · exact absurd (firstCpu_eq_none_iff.mp hfirst c hc) (not_le.mpr (hon c (hoob hc)))
    · exact .inr (.inr h)

/-- With nothing to choose from, a CPU that was asked for stays. -/
theorem pickOob_of_empty (h : 0 ≤ cpu) (hoob : oob = ∅) (hiso : isolated = ∅) :
    pickOob isolated oob cpu current = cpu := by
  have hnone : firstCpu ∅ = none :=
    firstCpu_eq_none_iff.mpr fun c hc => absurd hc (Finset.notMem_empty c)
  subst hoob hiso
  unfold pickOob pickIsolated
  simp only [hnone]
  exact if_neg (not_lt.mpr h)

/-- The tests run on a CPU which is online, unless a CPU was asked for with no online one from
there on and no set names another. -/
theorem pickTestCpu_online_iff (hoob : oob ⊆ online) (hiso : isolated ⊆ online)
    (hcur : cpuIsset current online = true) (hon : ∀ c ∈ online, c < cpuSetsize) :
    cpuIsset (pickTestCpu online isolated oob cpu inbandTest current).1 online = true ↔
      cpu < 0 ∨ (∃ c ∈ online, cpu ≤ c) ∨
        (inbandTest = false ∧ (oob.Nonempty ∨ isolated.Nonempty)) := by
  unfold pickTestCpu
  dsimp only
  by_cases hask : 0 ≤ cpu
  · rw [if_pos hask, or_iff_right (not_lt.mpr hask)]
    rcases @nextOnline_spec online cpu hask with ⟨hset, hle⟩ | ⟨hall, hge⟩
    · -- there is an online CPU from the hint on
      have hex : ∃ c ∈ online, cpu ≤ c := by
        simp only [cpuIsset, decide_eq_true_eq] at hset
        exact ⟨_, hset.2.2, by omega⟩
      refine iff_of_true ?_ (.inl hex)
      split_ifs
      · exact pickOob_online hoob hiso hon hcur (.inr (.inl hset))
      · exact hset
    · have hno : ¬ ∃ c ∈ online, cpu ≤ c := fun ⟨c, hc, hle⟩ => by
        have := hall c hc (hon c hc)
        omega
      have hout : ∀ t, cpuIsset (nextOnline online cpu) t = false := fun t => by
        simp only [cpuIsset, decide_eq_false_iff_not]
        omega
      rw [or_iff_right hno, hout]
      by_cases hband : inbandTest = false
      · rw [if_pos ⟨hband, rfl⟩]
        by_cases hchoice : oob.Nonempty ∨ isolated.Nonempty
        · exact iff_of_true (pickOob_online hoob hiso hon hcur (.inr (.inr hchoice)))
            ⟨hband, hchoice⟩
        · rw [not_or, Finset.not_nonempty_iff_eq_empty, Finset.not_nonempty_iff_eq_empty] at hchoice
          rw [pickOob_of_empty (by omega) hchoice.1 hchoice.2, hout]
          simp [hchoice.1, hchoice.2]
      · rw [if_neg fun h => hband h.1, hout]
        simp [hband]
  · rw [if_neg hask]
    have hneg : cpu < 0 := not_le.mp hask
    refine iff_of_true ?_ (.inl hneg)
    unfold pickDefault
    split_ifs
    · exact pickIsolated_online hiso hon hcur (.inl hneg)
    · cases hfirst : firstCpu (isolated ∩ oob) with
      | some c =>
        exact cpuIsset_mono (Finset.inter_subset_right.trans hoob) (firstCpu_spec hfirst)
      | none => exact pickOob_online hoob hiso hon hcur (.inl hneg)

/-- CPU 7 is not online, and an in-band test that asks for it gets no CPU. -/
theorem pickTestCpu_online_iff_beyond :
    cpuIsset (pickTestCpu {0, 1, 2, 3} {3} {2, 3} 7 true 0).1 {0, 1, 2, 3} = false := by
  rw [Bool.eq_false_iff, ne_eq, pickTestCpu_online_iff (by decide) (by decide) (by decide)
    (by decide)]
  decide

end Pick

end Libevl.CpuList
