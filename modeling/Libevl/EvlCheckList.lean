import Libevl.EvlCheckConfig

/-!
# The assertions of a check list

An assertion is an expression about one symbol, `SYM` or `SYM=v`, with `!` in
front of it to negate the whole, and the clauses `if [!]SYM` and `on arch` that
say where it applies. `apply_checklist` counts the assertions that apply and do
not hold, with two exceptions. It takes `!` and `=n` for one flag, and so counts
every `!SYM=v` that applies where the symbol has the other one of the values `y`
and `m`. And it looks for an alias instead of the names `arm` and `arm64`, so that
such a clause may be taken to hold where it does not, and the other way round.
-/
namespace Libevl.EvlCheck

open Lexing

section Assertions

def Tristate.name : Tristate → List Char
  | .y => ['y']
  | .m => ['m']
  | .n => ['n']

/-- A symbol of the kernel configuration. -/
structure Symbol where
  name : List Char
  word : name.all isword = true
  config : configPrefix.isPrefixOf name = true

/-- The name of an architecture, or an abbreviation of it. -/
structure CpuType where
  name : List Char
  word : name.all isword = true
  ne_nil : name ≠ []

/-- `[!]SYM[=v] [if [!]SYM] [on arch]` -/
structure Assertion where
  negated : Bool
  sym : Symbol
  value : Option Tristate
  condition : Option (Bool × Symbol)
  arch : Option CpuType

def notTokens (negated : Bool) : List (List Char) := if negated then [['!']] else []

def valueTokens : Option Tristate → List (List Char)
  | none => []
  | some v => [['='], v.name]

def conditionTokens : Option (Bool × Symbol) → List (List Char)
  | none => []
  | some (negated, sym) => "if".toList :: (notTokens negated ++ [sym.name])

def archTokens : Option CpuType → List (List Char)
  | none => []
  | some cpu => ["on".toList, cpu.name]

def Assertion.tokens (a : Assertion) : List (List Char) :=
  notTokens a.negated ++ a.sym.name ::
    (valueTokens a.value ++ (conditionTokens a.condition ++ archTokens a.arch))

/-- The lines hold the assertions one after the other, with blank lines and
comments between them. -/
inductive Reads : List (List Char) → List Assertion → Prop
  | nil : Reads [] []
  | blank {line ls as} : (∀ c ∈ line, isspace c = true) → Reads ls as → Reads (line :: ls) as
  | comment {gap text ls as} : (∀ c ∈ gap, isspace c = true) → Reads ls as →
      Reads ((gap ++ '#' :: text) :: ls) as
  | assertion {line ls a as} : Spells isspace isword a.tokens line → Reads ls as →
      Reads (line :: ls) (a :: as)

variable (σ : List Char → Tristate) (cpuarch : List Char) (a : Assertion)

/-- The expression without the negation. -/
def Assertion.expr : Bool :=
  match a.value with
  | none => σ a.sym.name != .n
  | some v => σ a.sym.name == v

def Assertion.holds : Bool := if a.negated then !a.expr σ else a.expr σ

/-- The condition of an `if` clause. -/
def conditionHolds : Option (Bool × Symbol) → Bool
  | none => true
  | some (negated, sym) => if negated then σ sym.name == .n else σ sym.name != .n

/-- The condition of an `on` clause: it names the architecture or the beginning of its name. -/
def archHolds : Option CpuType → Bool
  | none => true
  | some cpu => cpu.name.isPrefixOf cpuarch

/-- The same for what `get_arch_alias` puts in the place of the name. -/
def aliasHolds : Option CpuType → Bool
  | none => true
  | some cpu => (getArchAlias cpu.name).isPrefixOf cpuarch

def Assertion.applies : Bool := conditionHolds σ a.condition && archHolds cpuarch a.arch

/-- The assertion is `!SYM=v`, and the symbol is set to another value. -/
def Assertion.folded : Bool :=
  a.negated && a.value.any fun v => σ a.sym.name != .n && σ a.sym.name != v

def Assertion.fails : Bool := a.applies σ cpuarch && !a.holds σ

/-- The assertion is one that `apply_checklist` counts. -/
def Assertion.counted : Bool :=
  conditionHolds σ a.condition && aliasHolds cpuarch a.arch && (!a.holds σ || a.folded σ)

/-- The assertion fails, and the architecture does not begin with the alias. -/
def Assertion.skipped : Bool := a.fails σ cpuarch && !aliasHolds cpuarch a.arch

/-- The condition holds and the architecture begins with the alias. But it does not begin with the
name, or the assertion is a folded one. -/
def Assertion.misjudged : Bool :=
  conditionHolds σ a.condition && aliasHolds cpuarch a.arch &&
    (a.folded σ || (!archHolds cpuarch a.arch && !a.holds σ))

end Assertions

section Tokens

variable {ts us : List (List Char)} {token : List Char × List Char} {p : List Char}

theorem nextToken_eq (p : List Char) : nextToken p = lexeme isspace isword p := by
  induction p with
  | nil => rfl
  | cons c p ih =>
    rw [nextToken, lexeme, ih]
    cases isspace c <;> cases hw : isword c <;> simp [hw]

/-- The token is the first one of the list, and the rest of the string spells the others. -/
structure At (ts : List (List Char)) (token : List Char × List Char) : Prop where
  head : token.1 = ts.headD []
  rest : Spells isspace isword ts.tail token.2

theorem at_nextToken (h : Spells isspace isword ts p) : At ts (nextToken p) := by
  obtain ⟨rest, hlex, hrest⟩ := h.lexeme
  rw [nextToken_eq, hlex]
  exact ⟨rfl, hrest⟩

theorem At.next (h : At ts token) : At ts.tail (nextToken token.2) := at_nextToken h.rest

theorem nextToken_blanks {gap : List Char} (h : ∀ c ∈ gap, isspace c = true) (p : List Char) :
    nextToken (gap ++ p) = nextToken p := by
  induction gap with
  | nil => rfl
  | cons c gap ih =>
    obtain ⟨hc, hgap⟩ := List.forall_mem_cons.mp h
    rw [List.cons_append, nextToken, if_pos hc, ih hgap]

theorem Symbol.head? (sym : Symbol) : sym.name.head? = some 'C' := by
  obtain ⟨name, hname⟩ := List.isPrefixOf_iff_prefix.mp sym.config
  rw [← hname]
  rfl

/-- The first token after an optional `!`. -/
theorem At.skipNot {negated : Bool} {sym : Symbol}
    (h : At (notTokens negated ++ sym.name :: us) token) :
    (token.1.head? == some '!') = negated ∧
      At (sym.name :: us) (if token.1.head? == some '!' then nextToken token.2 else token) := by
  cases negated with
  | true =>
    have hhead : token.1 = ['!'] := h.head
    rw [hhead]
    exact ⟨rfl, h.next⟩
  | false =>
    have hhead : token.1 = sym.name := h.head
    have hnot : (token.1.head? == some '!') = false := by
      rw [hhead, sym.head?]
      rfl
    rw [hnot]
    exact ⟨rfl, h⟩

theorem applyVal_at {value : Option Tristate} (h : At (valueTokens value ++ us) token)
    (hus : (us.headD []).head? ≠ some '=') :
    (applyVal token).1 = value.map Tristate.name ∧ At us (applyVal token).2 := by
  rw [applyVal]
  cases value with
  | none =>
    have hhead : token.1 = us.headD [] := h.head
    rw [hhead, if_neg hus]
    exact ⟨rfl, h⟩
  | some v =>
    have hhead : token.1 = ['='] := h.head
    rw [hhead, List.head?_cons, if_pos rfl]
    exact ⟨congrArg some h.next.head, h.next.next⟩

theorem applyOn_at {arch : Option CpuType} {cpuarch : List Char} (h : At (archTokens arch) token) :
    applyOn cpuarch token = aliasHolds cpuarch arch := by
  rw [applyOn]
  cases arch with
  | none =>
    have hhead : token.1 = [] := h.head
    rw [hhead, if_neg (by decide)]
    rfl
  | some cpu =>
    have hhead : token.1 = "on".toList := h.head
    have hcpu : (nextToken token.2).1 = cpu.name := h.next.head
    rw [hhead, if_pos rfl, hcpu]
    rfl

end Tokens

section Lines

variable {σ : List Char → Tristate} {t : HTable} {cpuarch line : List Char} {a : Assertion}
  {lineno : ℕ} {us : List (List Char)} {token : List Char × List Char}

/-- The table holds what the symbols are set to. -/
def Tells (t : HTable) (σ : List Char → Tristate) : Prop :=
  ∀ sym, configPrefix.isPrefixOf sym → t.find sym = (σ sym).kept

theorem Tells.condition (ht : Tells t σ) (negated : Bool) (sym : Symbol) :
    (((t.find sym.name).isSome && !negated) || ((t.find sym.name).isNone && negated)) =
      conditionHolds σ (some (negated, sym)) := by
  rw [ht sym.name sym.config, conditionHolds]
  cases σ sym.name <;> cases negated <;> rfl

theorem applyIf_at (ht : Tells t σ) {condition : Option (Bool × Symbol)}
    (h : At (conditionTokens condition ++ us) token) (hus : us.headD [] ≠ "if".toList) :
    ∃ r, applyIf t lineno token = .ok r ∧ r.isSome = conditionHolds σ condition ∧
      ∀ token' ∈ r, At us token' := by
  rw [applyIf]
  cases condition with
  | none =>
    have hhead : token.1 = us.headD [] := h.head
    rw [hhead, if_neg hus]
    refine ⟨some token, rfl, rfl, fun token' htoken' => ?_⟩
    rwa [← Option.some.inj htoken']
  | some cond =>
    obtain ⟨negated, sym⟩ := cond
    have hhead : token.1 = "if".toList := h.head
    have hnext : At (notTokens negated ++ sym.name :: us) (nextToken token.2) := by
      have := h.next
      rwa [conditionTokens, List.cons_append, List.tail_cons, List.append_assoc] at this
    obtain ⟨hnot, hsym⟩ := hnext.skipNot
    rw [hnot] at hsym
    rw [hhead, if_pos rfl]
    simp only [hnot]
    generalize (if negated = true then _ else _) = symToken at hsym ⊢
    have hname : symToken.1 = sym.name := hsym.head
    rw [hname, if_neg (by simp [sym.config]), ht.condition]
    cases conditionHolds σ (some (negated, sym)) with
    | true =>
      refine ⟨some (nextToken symToken.2), rfl, rfl, fun token' htoken' => ?_⟩
      rw [← Option.some.inj htoken']
      exact hsym.next
    | false => exact ⟨none, rfl, rfl, fun _ h => nomatch h⟩

/-- The symbol is reported when the assertion is false, and when `!` and a value
that the symbol does not have are taken for one flag. -/
theorem applySym_isSome (ht : Tells t σ) :
    (applySym t a.negated a.sym.name (a.value.map Tristate.name)).isSome =
      (!a.holds σ || a.folded σ) := by
  rw [applySym, ht a.sym.name a.sym.config, Assertion.holds, Assertion.expr, Assertion.folded]
  cases a.value with
  | none => cases σ a.sym.name <;> cases a.negated <;> rfl
  | some v => cases σ a.sym.name <;> cases a.negated <;> cases v <;> rfl

theorem headD_clauses (condition : Option (Bool × Symbol)) (arch : Option CpuType) :
    ((conditionTokens condition ++ archTokens arch).headD []).head? ≠ some '=' := by
  cases condition with
  | none =>
    cases arch with
    | none => exact (by decide : [].head? ≠ some '=')
    | some cpu => exact (by decide : "on".toList.head? ≠ some '=')
  | some cond => exact (by decide : "if".toList.head? ≠ some '=')

theorem headD_arch (arch : Option CpuType) : (archTokens arch).headD [] ≠ "if".toList := by
  cases arch with
  | none => exact (by decide : [] ≠ "if".toList)
  | some cpu => exact (by decide : "on".toList ≠ "if".toList)

theorem Assertion.headD_tokens (a : Assertion) :
    ¬(a.tokens.headD [] = [] ∨ a.tokens.headD [] = ['#']) := by
  rw [Assertion.tokens]
  cases a.negated with
  | true => exact (by decide : ¬(['!'] = [] ∨ ['!'] = ['#']))
  | false =>
    have hhead := a.sym.head?
    rintro (h | h)
    · rw [show a.sym.name = [] from h] at hhead
      contradiction
    · rw [show a.sym.name = ['#'] from h] at hhead
      exact absurd hhead (by decide)

/-- A round on an assertion reports it or not, without an error. -/
theorem applyLine_assertion (ht : Tells t σ) (h : Spells isspace isword a.tokens line) :
    ∃ r, applyLine t cpuarch lineno line = .ok r ∧ r.isSome = a.counted σ cpuarch := by
  have hfirst := at_nextToken h
  obtain ⟨hnot, hsym⟩ := hfirst.skipNot
  have hgo : ¬((nextToken line).1 = [] ∨ (nextToken line).1 = ['#']) := by
    rw [hfirst.head]
    exact a.headD_tokens
  rw [hnot] at hsym
  rw [applyLine]
  simp only [hgo, if_false, hnot]
  generalize (if a.negated = true then _ else _) = symToken at hsym ⊢
  have hname : symToken.1 = a.sym.name := hsym.head
  obtain ⟨hval, hcond⟩ := applyVal_at hsym.next (headD_clauses a.condition a.arch)
  obtain ⟨r, hr, hisSome, hat⟩ := applyIf_at ht hcond (headD_arch a.arch)
  rw [hname, if_neg (by simp [a.sym.config]), hval, hr, Assertion.counted]
  cases r with
  | none =>
    refine ⟨none, rfl, ?_⟩
    rw [← hisSome]
    rfl
  | some token =>
    refine ⟨_, rfl, ?_⟩
    rw [applyOn_at (hat token rfl), ← hisSome, ← applySym_isSome ht]
    cases aliasHolds cpuarch a.arch <;> rfl

theorem applyLine_blank (h : ∀ c ∈ line, isspace c = true) :
    applyLine t cpuarch lineno line = .ok none := by
  rw [applyLine, ← List.append_nil line, nextToken_blanks h]
  exact if_pos (.inl rfl)

theorem applyLine_comment {gap text : List Char} (h : ∀ c ∈ gap, isspace c = true) :
    applyLine t cpuarch lineno (gap ++ '#' :: text) = .ok none := by
  rw [applyLine, nextToken_blanks h]
  exact if_pos (.inr rfl)

end Lines

section Loop

variable {σ : List Char → Tristate} {t : HTable} {cpuarch buf : List Char} {a : Assertion}
  {as : List Assertion} {lineno : ℕ} {ls bufs : List (List Char)} {out : Outcome} {quiet : Bool}

/-- A round of the loop counts a reported assertion. No counter overflows as long as
there are less than `2 ^ 31` lines. -/
theorem applyLoop_cons {r : Option (List Char)} (hlineno : lineno + 1 < 2 ^ 31)
    (hout : out.failed ≤ lineno) (hr : applyLine t cpuarch (lineno + 1) buf = .ok r) :
    ∃ out', applyLoop quiet t cpuarch (buf :: bufs) lineno out =
        applyLoop quiet t cpuarch bufs (lineno + 1) out' ∧
      out'.failed = out.failed + if r.isSome then 1 else 0 := by
  have hlineno' : increment lineno = .ok (lineno + 1) := if_pos hlineno
  have hfailed : increment out.failed = .ok (out.failed + 1) := if_pos (by omega)
  rw [applyLoop, hlineno']
  cases r with
  | none =>
    refine ⟨out, ?_, rfl⟩
    show (applyLine t cpuarch (lineno + 1) buf >>= _) = _
    rw [hr]
    rfl
  | some text =>
    refine ⟨⟨out.failed + 1, if quiet then out.printed else out.printed ++ [text]⟩, ?_, rfl⟩
    show (applyLine t cpuarch (lineno + 1) buf >>= _) = _
    rw [hr]
    show (increment out.failed >>= _) = _
    rw [hfailed]
    rfl

theorem applyLoop_overflow (hlineno : 2 ^ 31 ≤ lineno + 1) :
    applyLoop quiet t cpuarch (buf :: bufs) lineno out = .error .overflow := by
  have hlineno' : increment lineno = .error .overflow := if_neg (by omega)
  rw [applyLoop, hlineno']
  rfl

/-- The loop reports `n` of the lines, when there are not too many for its counters. -/
def Reports (quiet : Bool) (t : HTable) (cpuarch : List Char) (bufs : List (List Char))
    (n : ℕ) : Prop :=
  ∀ lineno out, lineno < 2 ^ 31 → out.failed ≤ lineno →
    (applyLoop quiet t cpuarch bufs lineno out).map Outcome.failed =
      if lineno + bufs.length < 2 ^ 31 then .ok (out.failed + n) else .error .overflow

theorem Reports.cons {n : ℕ} {reported : Bool} (h : Reports quiet t cpuarch bufs n)
    (hr : ∀ lineno, ∃ r, applyLine t cpuarch lineno buf = .ok r ∧ r.isSome = reported) :
    Reports quiet t cpuarch (buf :: bufs) (n + if reported then 1 else 0) := by
  intro lineno out hlineno hout
  rw [List.length_cons]
  by_cases hnext : lineno + 1 < 2 ^ 31
  · obtain ⟨r, hline, rfl⟩ := hr (lineno + 1)
    obtain ⟨out', hloop, hfailed⟩ := applyLoop_cons hnext hout hline
    have hout' : out'.failed ≤ lineno + 1 := by
      split at hfailed <;> omega
    rw [hloop, h (lineno + 1) out' hnext hout', hfailed, Nat.add_right_comm lineno,
      Nat.add_assoc lineno, Nat.add_right_comm, Nat.add_assoc out.failed]
  · rw [applyLoop_overflow (Nat.le_of_not_lt hnext), if_neg (by omega)]
    rfl

/-- The loop reports the counted assertions of the lines. -/
theorem reports_reads (ht : Tells t σ) (h : Reads ls as) :
    Reports quiet t cpuarch ls (as.countP (·.counted σ cpuarch)) := by
  induction h with
  | nil =>
    intro lineno out hlineno _
    exact (if_pos hlineno).symm
  | blank hline _ ih => exact ih.cons fun _ => ⟨none, applyLine_blank hline, rfl⟩
  | comment hgap _ ih => exact ih.cons fun _ => ⟨none, applyLine_comment hgap, rfl⟩
  | assertion hline _ ih =>
    rw [List.countP_cons]
    exact ih.cons fun _ => applyLine_assertion ht hline

/-- A folded assertion is true. -/
theorem Assertion.holds_of_folded (h : a.folded σ = true) : a.holds σ = true := by
  rw [Assertion.folded, Bool.and_eq_true] at h
  obtain ⟨hnot, hvalue⟩ := h
  rw [Assertion.holds, if_pos hnot, Assertion.expr]
  cases hv : a.value with
  | none =>
    rw [hv] at hvalue
    contradiction
  | some v =>
    rw [hv, Option.any_some, Bool.and_eq_true] at hvalue
    exact hvalue.2

/-- The failing assertions are counted but for the skipped ones, and the misjudged ones besides. -/
theorem countP_counted (σ : List Char → Tristate) (cpuarch : List Char) (as : List Assertion) :
    as.countP (·.counted σ cpuarch) + as.countP (·.skipped σ cpuarch) =
      as.countP (·.fails σ cpuarch) + as.countP (·.misjudged σ cpuarch) := by
  induction as with
  | nil => rfl
  | cons a as ih =>
    have hcount : (if a.counted σ cpuarch then 1 else 0) + (if a.skipped σ cpuarch then 1 else 0) =
        (if a.fails σ cpuarch then 1 else 0) + if a.misjudged σ cpuarch then 1 else 0 := by
      rw [Assertion.counted, Assertion.skipped, Assertion.misjudged, Assertion.fails,
        Assertion.applies]
      cases conditionHolds σ a.condition with
      | false => rfl
      | true =>
        cases hfolded : a.folded σ with
        | true =>
          rw [Assertion.holds_of_folded hfolded]
          cases archHolds cpuarch a.arch <;> cases aliasHolds cpuarch a.arch <;> rfl
        | false =>
          cases archHolds cpuarch a.arch <;> cases aliasHolds cpuarch a.arch <;>
            cases a.holds σ <;> rfl
    simp only [List.countP_cons]
    omega

end Loop

section Runs

variable {kconf check cpuarch : List Char} {as : List Assertion} {capacity : ℕ → ℕ}
  {hashSize : ℕ} {quiet : Bool}

/-- A run returns the number of the assertions that apply and do not hold exactly
when the check list has less than `2 ^ 31` lines and as many assertions are
misjudged as failing ones are skipped. -/
theorem run_failed_iff (hone : OneValue kconf) (hkconf : ShortLines kconf)
    (hroom : Room (capacity hashSize) kconf) (hcheck : ShortLines check)
    (hreads : Reads (lines check) as) :
    (run capacity hashSize quiet kconf check cpuarch).map Outcome.failed =
        .ok (as.countP (·.fails (tristate kconf) cpuarch)) ↔
      (lines check).length < 2 ^ 31 ∧
        as.countP (·.misjudged (tristate kconf) cpuarch) =
          as.countP (·.skipped (tristate kconf) cpuarch) := by
  obtain ⟨t, arch, hhash, ht⟩ := hashConfig_ok hone hkconf hroom
  have hloop : (run capacity hashSize quiet kconf check cpuarch).map Outcome.failed =
      if 0 + (lines check).length < 2 ^ 31 then
        .ok (0 + as.countP (·.counted (tristate kconf) cpuarch))
      else .error .overflow := by
    rw [run, hhash, ← reports_reads ht hreads 0 ⟨0, []⟩ (by decide) le_rfl, ← buffers_eq hcheck]
    rfl
  have hcount := countP_counted (tristate kconf) cpuarch as
  rw [hloop, Nat.zero_add, Nat.zero_add]
  split
  · next hlen =>
    rw [Except.ok.injEq]
    constructor
    · intro h
      exact ⟨hlen, by omega⟩
    · intro h
      omega
  · next hlen => exact ⟨fun h => by contradiction, fun h => absurd h.1 hlen⟩

/-- A configuration with one setting. -/
def kconfA : List Char := "CONFIG_A=y\n".toList

theorem hasValue_kconfA {sym val : List Char} (h : HasValue kconfA sym val) :
    sym = "CONFIG_A".toList ∧ val = ['y'] := by
  obtain ⟨line, hline, hsets⟩ := h
  obtain rfl := List.mem_singleton.mp hline
  obtain ⟨hsym, hval⟩ := Prod.mk.inj (Option.some.inj (sets_iff.mp hsets))
  exact ⟨hsym.symm, hval.symm⟩

theorem oneValue_kconfA : OneValue kconfA := by
  intro sym val val' h h'
  rw [(hasValue_kconfA h).2, (hasValue_kconfA h').2]

theorem room_kconfA : Room 16411 kconfA := by
  refine ⟨["CONFIG_A".toList], by decide, fun sym _ hset => ?_⟩
  rcases tristate_cases kconfA sym with hn | ⟨val, hval, -⟩
  · exact absurd hn hset
  · exact List.mem_singleton.mpr (hasValue_kconfA hval).1

def symA : Symbol := ⟨"CONFIG_A".toList, by decide, by decide⟩

def symB : Symbol := ⟨"CONFIG_B".toList, by decide, by decide⟩

/-- What the default size of the table is rounded up to: the next prime. -/
def roundedUp : ℕ → ℕ := fun _ => 16411

/-- An assertion with both clauses fails. -/
theorem run_failed_clauses :
    (run roundedUp 16384 false kconfA "CONFIG_A=m if !CONFIG_B on aarch\n".toList
      "aarch64".toList).map Outcome.failed = .ok 1 := by
  have hreads : Reads (lines "CONFIG_A=m if !CONFIG_B on aarch\n".toList)
      [⟨false, symA, some .m, some (true, symB), some ⟨"aarch".toList, by decide, by decide⟩⟩] := by
    refine .assertion (?_ : Spells isspace isword [symA.name, ['='], ['m'], "if".toList, ['!'],
      symB.name, "on".toList, "aarch".toList] _) .nil
    iterate 8 refine .of_lexeme (by rfl) (by decide) ?_
    exact .blank rfl .done
  exact (run_failed_iff oneValue_kconfA (by decide) room_kconfA (by decide) hreads).mpr
    ⟨by decide, by decide⟩

/-- A clause for `arm` is not taken to hold on an `armv7l`. -/
example : (run roundedUp 16384 false [] "CONFIG_A on arm\n".toList "armv7l".toList).map
    Outcome.failed = .ok 0 := by decide

/-- `!CONFIG_A=n` is true where `CONFIG_A` is set, but it is counted. -/
theorem not_run_failed_folded :
    ¬∀ (capacity : ℕ → ℕ) (hashSize : ℕ) (quiet : Bool) (kconf check cpuarch : List Char)
        (as : List Assertion),
      OneValue kconf → ShortLines kconf → Room (capacity hashSize) kconf → ShortLines check →
      Reads (lines check) as →
      (run capacity hashSize quiet kconf check cpuarch).map Outcome.failed =
        .ok (as.countP (·.fails (tristate kconf) cpuarch)) := by
  intro h
  have hreads : Reads (lines "!CONFIG_A=n\n".toList) [⟨true, symA, some .n, none, none⟩] := by
    refine .assertion (?_ : Spells isspace isword [['!'], symA.name, ['='], ['n']] _) .nil
    iterate 4 refine .of_lexeme (by rfl) (by decide) ?_
    exact .blank rfl .done
  have hrun := h roundedUp 16384 true kconfA "!CONFIG_A=n\n".toList "x86_64".toList _ oneValue_kconfA
    (by decide) room_kconfA (by decide) hreads
  exact absurd hrun (by decide)

end Runs

end Libevl.EvlCheck
