import Mathlib.Algebra.Order.Ring.Nat
import Libevl.Lexing

/-!
# Checking a kernel configuration

`evl-check` hashes the symbols that a kernel configuration sets to `y` or `m`,
and then reads assertions about them, one a line. The functions work on C
strings, here the lists of their characters in front of the NUL, and a
character is the byte of its code. How many entries the C library gives a hash
table of some size is a parameter. Signed overflow of a counter is undefined, so
a run that comes to it has no result.
-/
namespace Libevl.EvlCheck

/-- Why a run ends without a result. -/
inductive Error
  /-- `h-table full -- try -H` -/
  | full
  /-- `invalid check list symbol '%s' at line %d` -/
  | symbol (sym : List Char) (lineno : ℕ)
  /-- `invalid condition symbol '%s' at line %d` -/
  | condition (token : List Char) (lineno : ℕ)
  /-- A counter of type `int` overflows. -/
  | overflow
  deriving DecidableEq, Repr

/-- The size of the line buffers. -/
def bufsiz : ℕ := 8192

/-- A character in front of the first of some lines. -/
def consLine (c : Char) : List (List Char) → List (List Char)
  | [] => [[c]]
  | line :: lines => (c :: line) :: lines

/-- What the calls of `fgets` store one after the other, where the first one has
room for `left` characters: a newline or a full buffer ends a call. -/
def fgets (left : ℕ) : List Char → List (List Char)
  | [] => []
  | c :: text =>
    if c = '\n' ∨ left = 1 then [c] :: fgets (bufsiz - 1) text
    else consLine c (fgets (left - 1) text)

/-- The string in a buffer. -/
def cString (buf : List Char) : List Char := buf.takeWhile (· ≠ '\x00')

/-- The strings that a loop over `fgets(buf, sizeof(buf), fp)` works on. -/
def buffers (text : List Char) : List (List Char) := (fgets (bufsiz - 1) text).map cString

/-- In the C locale. -/
def isspace (c : Char) : Bool := c == ' ' || ('\t' ≤ c && c ≤ '\r')

/-- Letters, digits and the underscore, in the C locale. -/
def isword (c : Char) : Bool := c.isAlphanum || c == '_'

def configPrefix : List Char := "CONFIG_".toList

/-- A table of `hcreate` that takes `size` entries, with those that `hsearch` made in it. -/
structure HTable where
  size : ℕ
  entries : List (List Char × List Char)
  deriving DecidableEq, Repr

/-- `hsearch(entry, FIND)` -/
def HTable.find (t : HTable) (key : List Char) : Option (List Char) := t.entries.lookup key

/-- `hsearch(entry, ENTER)` of a key that is not in the table. -/
def HTable.enter (t : HTable) (key data : List Char) : Except Error HTable :=
  if t.entries.length < t.size then .ok { t with entries := (key, data) :: t.entries }
  else .error .full

/-- `sscanf(buf, "%m[^=]=%ms\n", &sym, &val)` when it assigns both. -/
def scanSetting (buf : List Char) : Option (List Char × List Char) :=
  let sym := buf.takeWhile (· != '=')
  let val := (((buf.dropWhile (· != '=')).drop 1).dropWhile isspace).takeWhile (!isspace ·)
  if sym = [] ∨ val = [] then none else some (sym, val)

/-- `sscanf(buf, "# Linux/%m[^ ]", &arch)` when it assigns, on a line that starts with `#`. -/
def scanArch (buf : List Char) : Option (List Char) :=
  let text := (buf.drop 1).dropWhile isspace
  let arch := (text.drop 6).takeWhile (· != ' ')
  if "Linux/".toList.isPrefixOf text = false ∨ arch = [] then none else some arch

/-- The round of `hash_config` for a line that does not start with `#`. -/
def hashLine (t : HTable) (buf : List Char) : Except Error HTable :=
  match scanSetting buf with
  | none => .ok t
  | some (sym, val) =>
    if configPrefix.isPrefixOf sym = false then .ok t
    else if val ≠ ['y'] ∧ val ≠ ['m'] then .ok t
    else if (t.find sym).isSome then .ok t
    else t.enter sym val

def hashLoop : List (List Char) → HTable → Option (List Char) →
    Except Error (HTable × Option (List Char))
  | [], t, arch => .ok (t, arch)
  | buf :: bufs, t, arch =>
    if buf.head? = some '#' then hashLoop bufs t ((scanArch buf).or arch)
    else do
      let t ← hashLine t buf
      hashLoop bufs t arch

/-- The table of the symbols set to `y` or `m`, and the architecture that a
comment of the configuration names. `hcreate(n)` makes a table for `capacity n` entries. -/
def hashConfig (capacity : ℕ → ℕ) (hashSize : ℕ) (kconf : List Char) :
    Except Error (HTable × Option (List Char)) :=
  hashLoop (buffers kconf) { size := capacity hashSize, entries := [] } none

/-- The next token and the rest of the string. At the end the token is empty. -/
def nextToken : List Char → List Char × List Char
  | [] => ([], [])
  | c :: p =>
    if isspace c then nextToken p
    else if !isword c then ([c], p)
    else ((c :: p).takeWhile isword, (c :: p).dropWhile isword)

def getArchAlias (arch : List Char) : List Char :=
  if arch = "arm64".toList then "aarch64".toList
  else if arch = "arm".toList then "aarch32".toList
  else arch

/-- The part of `apply_checklist` that reads `= val`, with the token after it. -/
def applyVal (token : List Char × List Char) :
    Option (List Char) × (List Char × List Char) :=
  if token.1.head? = some '=' then
    let val := nextToken token.2
    (some val.1, nextToken val.2)
  else (none, token)

/-- The part that reads `if [!]SYM`, with the token after it. There is none when
the condition does not hold, and the loop goes on to the next line. -/
def applyIf (t : HTable) (lineno : ℕ) (token : List Char × List Char) :
    Except Error (Option (List Char × List Char)) :=
  if token.1 = "if".toList then
    let cond := nextToken token.2
    let notcond := cond.1.head? == some '!'
    let sym := if notcond then nextToken cond.2 else cond
    if configPrefix.isPrefixOf sym.1 = false then .error (.condition sym.1 lineno)
    else
      let e := t.find sym.1
      if (e.isSome && !notcond) || (e.isNone && notcond) then .ok (some (nextToken sym.2))
      else .ok none
  else .ok (some token)

/-- The part that reads `on arch`. -/
def applyOn (cpuarch : List Char) (token : List Char × List Char) : Bool :=
  if token.1 = "on".toList then (getArchAlias (nextToken token.2).1).isPrefixOf cpuarch
  else true

/-- The part that looks the symbol up, with the text printed for a failed assertion. -/
def applySym (t : HTable) (not : Bool) (sym : List Char) (val : Option (List Char)) :
    Option (List Char) :=
  let not := if val = some ['n'] then !not else not
  match t.find sym with
  | some data =>
    if not || val.any (· != data) then some (sym ++ '=' :: data ++ ['\n']) else none
  | none => if !not then some (sym ++ "=n\n".toList) else none

/-- A round of `apply_checklist`. -/
def applyLine (t : HTable) (cpuarch : List Char) (lineno : ℕ) (buf : List Char) :
    Except Error (Option (List Char)) :=
  let token := nextToken buf
  if token.1 = [] ∨ token.1 = ['#'] then .ok none
  else
    let not := token.1.head? == some '!'
    let sym := if not then nextToken token.2 else token
    if configPrefix.isPrefixOf sym.1 = false then .error (.symbol sym.1 lineno)
    else do
      let (val, token) := applyVal (nextToken sym.2)
      match ← applyIf t lineno token with
      | none => pure none
      | some token => pure (if applyOn cpuarch token then applySym t not sym.1 val else none)

/-- `n++` for an `int`. -/
def increment (n : ℕ) : Except Error ℕ := if n + 1 < 2 ^ 31 then .ok (n + 1) else .error .overflow

/-- What `apply_checklist` returns and the texts it prints. -/
structure Outcome where
  failed : ℕ
  printed : List (List Char)
  deriving DecidableEq, Repr

def applyLoop (quiet : Bool) (t : HTable) (cpuarch : List Char) :
    List (List Char) → ℕ → Outcome → Except Error Outcome
  | [], _, out => .ok out
  | buf :: bufs, lineno, out => do
    let lineno ← increment lineno
    match ← applyLine t cpuarch lineno buf with
    | none => applyLoop quiet t cpuarch bufs lineno out
    | some text =>
      let failed ← increment out.failed
      applyLoop quiet t cpuarch bufs lineno
        { failed, printed := if quiet then out.printed else out.printed ++ [text] }

def applyChecklist (quiet : Bool) (t : HTable) (check cpuarch : List Char) :
    Except Error Outcome :=
  applyLoop quiet t cpuarch (buffers check) 0 { failed := 0, printed := [] }

/-- `hash_config` on the configuration, then `apply_checklist` on the check list. -/
def run (capacity : ℕ → ℕ) (hashSize : ℕ) (quiet : Bool) (kconf check cpuarch : List Char) :
    Except Error Outcome := do
  let (t, _) ← hashConfig capacity hashSize kconf
  applyChecklist quiet t check cpuarch

end Libevl.EvlCheck
