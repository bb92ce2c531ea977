import Mathlib.Data.List.Perm.Subperm
import Libevl.EvlCheck

/-!
# What `hash_config` keeps of a kernel configuration

A line of the form `SYM=value` sets a symbol. When the lines fit into the buffer
and no symbol has two values, the table holds the symbols that are set to `y` or
`m`, with these values, and no others.
-/
namespace Libevl.EvlCheck

section Lines

/-- The lines of a text, each with its newline. -/
def splitLines : List Char → List (List Char)
  | [] => []
  | c :: text => if c = '\n' then [c] :: splitLines text else consLine c (splitLines text)

/-- The lines of a text as strings. -/
def lines (text : List Char) : List (List Char) := (splitLines text).map cString

/-- Every line is shorter than the line buffer. -/
def ShortLines (text : List Char) : Prop := ∀ line ∈ splitLines text, line.length < bufsiz

instance (text : List Char) : Decidable (ShortLines text) :=
  inferInstanceAs (Decidable (∀ line ∈ splitLines text, line.length < bufsiz))

theorem splitLines_eq_nil {text : List Char} (h : splitLines text = []) : text = [] := by
  cases text with
  | nil => rfl
  | cons c text =>
    rw [splitLines] at h
    split at h
    · exact absurd h (List.cons_ne_nil _ _)
    · cases hs : splitLines text <;> simp [hs, consLine] at h

theorem ne_nil_of_mem_consLine {c : Char} {ls : List (List Char)} {line : List Char}
    (hls : ∀ l ∈ ls, l ≠ []) (h : line ∈ consLine c ls) : line ≠ [] := by
  cases ls with
  | nil =>
    rw [List.mem_singleton.mp h]
    exact List.cons_ne_nil _ _
  | cons first rest =>
    rcases List.mem_cons.mp h with rfl | h
    · exact List.cons_ne_nil _ _
    · exact hls line (List.mem_cons_of_mem first h)

theorem ne_nil_of_mem_splitLines {text line : List Char} (h : line ∈ splitLines text) :
    line ≠ [] := by
  induction text generalizing line with
  | nil => exact absurd h List.not_mem_nil
  | cons c text ih =>
    rw [splitLines] at h
    split at h
    · rcases List.mem_cons.mp h with rfl | h
      · exact List.cons_ne_nil _ _
      · exact ih h
    · exact ne_nil_of_mem_consLine (fun l hl => ih hl) h

theorem length_lt_of_consLine {c : Char} {ls : List (List Char)} {n : ℕ}
    (h : ∀ line ∈ consLine c ls, line.length < n) : ∀ line ∈ ls, line.length < n := by
  cases ls with
  | nil => exact fun _ hline => absurd hline List.not_mem_nil
  | cons first rest =>
    intro line hline
    rcases List.mem_cons.mp hline with rfl | hline
    · have := h _ List.mem_cons_self
      rw [List.length_cons] at this
      omega
    · exact h line (List.mem_cons_of_mem _ hline)

/-- Where the first line fits into the room left and the others into the
buffer, each call of `fgets` stores one line. -/
theorem fgets_eq {text : List Char} {left : ℕ}
    (hfirst : ∀ line ∈ (splitLines text).head?, line.length ≤ left) (hshort : ShortLines text) :
    fgets left text = splitLines text := by
  induction text generalizing left with
  | nil => rfl
  | cons c text ih =>
    rw [ShortLines, splitLines] at hshort
    rw [splitLines] at hfirst ⊢
    rw [fgets]
    by_cases hc : c = '\n'
    · simp only [hc, if_true, List.mem_cons, forall_eq_or_imp, true_or] at hshort ⊢
      rw [ih _ hshort.2]
      intro line hline
      have := hshort.2 line (List.mem_of_mem_head? hline)
      omega
    · simp only [hc, if_false, false_or] at hshort hfirst ⊢
      cases hs : splitLines text with
      | nil => simp [splitLines_eq_nil hs, fgets, consLine]
      | cons first rest =>
        rw [hs] at hfirst
        have hlen : (c :: first).length ≤ left := hfirst _ rfl
        have hpos : 0 < first.length :=
          List.length_pos_iff.mpr (ne_nil_of_mem_splitLines (hs ▸ List.mem_cons_self))
        rw [List.length_cons] at hlen
        rw [if_neg (by omega), ih _ (length_lt_of_consLine hshort), hs]
        intro line hline
        rw [hs, List.head?_cons, Option.mem_some_iff] at hline
        subst hline
        omega

/-- A loop over a text of short lines works on its lines. -/
theorem buffers_eq {text : List Char} (h : ShortLines text) : buffers text = lines text := by
  rw [buffers, lines, fgets_eq _ h]
  intro line hline
  have := h line (List.mem_of_mem_head? hline)
  omega

end Lines

section Settings

/-- The line sets the symbol: it reads `SYM=val`, where blanks may stand on both
sides of the value. -/
def Sets (line sym val : List Char) : Prop :=
  ∃ gap tail, line = sym ++ '=' :: (gap ++ (val ++ tail)) ∧ sym ≠ [] ∧ '=' ∉ sym ∧
    (∀ c ∈ gap, isspace c = true) ∧ val ≠ [] ∧ (∀ c ∈ val, isspace c = false) ∧
    ∀ c ∈ tail.head?, isspace c = true

/-- The call of `sscanf` assigns the symbol and the value that the line sets. -/
theorem sets_iff {line sym val : List Char} :
    Sets line sym val ↔ scanSetting line = some (sym, val) := by
  constructor
  · rintro ⟨gap, tail, rfl, hsym, heq, hgap, hval, hword, htail⟩
    have hstop : ∀ c ∈ ('=' :: (gap ++ (val ++ tail))).head?, (c != '=') = false := by simp
    have hsym' : ∀ c ∈ sym, (c != '=') = true := by
      intro c hc
      exact bne_iff_ne.mpr fun h => heq (h ▸ hc)
    have hgap' : ∀ c ∈ (val ++ tail).head?, isspace c = false := by
      intro c hc
      cases val with
      | nil => contradiction
      | cons d val =>
        obtain rfl : d = c := by simpa using hc
        exact hword d List.mem_cons_self
    have hval' : (val ++ tail).takeWhile (!isspace ·) = val := by
      apply Lexing.takeWhile_append_of_head
      · simpa using hword
      · simpa using htail
    rw [scanSetting, Lexing.takeWhile_append_of_head hsym' hstop,
      Lexing.dropWhile_append_of_head hsym' hstop, List.drop_one, List.tail_cons,
      Lexing.dropWhile_append_of_head hgap hgap', hval', if_neg (by simp [hsym, hval])]
  · intro h
    rw [scanSetting] at h
    split at h
    · contradiction
    · next hne =>
      obtain ⟨hsym, hval⟩ := Prod.mk.inj (Option.some.inj h)
      rw [hsym, hval, not_or] at hne
      obtain ⟨c, text, hrest⟩ : ∃ c text, line.dropWhile (· != '=') = c :: text := by
        cases hrest : line.dropWhile (· != '=') with
        | nil => simp [hrest, ← hval] at hne
        | cons c text => exact ⟨c, text, rfl⟩
      obtain rfl : c = '=' := by
        have := Lexing.head?_dropWhile (Option.mem_def.mpr (congrArg List.head? hrest))
        simpa using this
      rw [hrest, List.drop_one, List.tail_cons] at hval
      refine ⟨text.takeWhile isspace, (text.dropWhile isspace).dropWhile (!isspace ·), ?_,
        hne.1, ?_, ?_, hne.2, ?_, ?_⟩
      · rw [← hval, List.takeWhile_append_dropWhile, List.takeWhile_append_dropWhile, ← hrest,
          ← hsym, List.takeWhile_append_dropWhile]
      · intro hmem
        rw [← hsym] at hmem
        simpa using List.mem_takeWhile_imp hmem
      · exact fun c hc => List.mem_takeWhile_imp hc
      · intro c hc
        rw [← hval] at hc
        simpa using List.mem_takeWhile_imp hc
      · intro c hc
        simpa using Lexing.head?_dropWhile hc

instance (line sym val : List Char) : Decidable (Sets line sym val) :=
  decidable_of_iff _ sets_iff.symm

/-- A line of the configuration sets the symbol to the value. -/
def HasValue (kconf sym val : List Char) : Prop := ∃ line ∈ lines kconf, Sets line sym val

instance (kconf sym val : List Char) : Decidable (HasValue kconf sym val) :=
  inferInstanceAs (Decidable (∃ line ∈ lines kconf, Sets line sym val))

/-- No symbol is set to two values. -/
def OneValue (kconf : List Char) : Prop :=
  ∀ sym val val', HasValue kconf sym val → HasValue kconf sym val' → val = val'

inductive Tristate
  | y
  | m
  | n
  deriving DecidableEq, Repr

/-- The value of a symbol, `n` when it is neither `y` nor `m`. -/
def tristate (kconf sym : List Char) : Tristate :=
  if HasValue kconf sym ['y'] then .y
  else if HasValue kconf sym ['m'] then .m
  else .n

/-- What the table holds for a symbol with the value. -/
def Tristate.kept : Tristate → Option (List Char)
  | .y => some ['y']
  | .m => some ['m']
  | .n => none

/-- At most `size` symbols are set to `y` or `m`. -/
def Room (size : ℕ) (kconf : List Char) : Prop :=
  ∃ syms : List (List Char), syms.length ≤ size ∧
    ∀ sym, configPrefix.isPrefixOf sym → tristate kconf sym ≠ .n → sym ∈ syms

end Settings

section Table

variable {kconf sym val line : List Char} {t t' : HTable} {size : ℕ}

theorem tristate_ne_n (h : HasValue kconf sym val) (hval : val = ['y'] ∨ val = ['m']) :
    tristate kconf sym ≠ .n := by
  rw [tristate]
  rcases hval with rfl | rfl
  · rw [if_pos h]
    exact Tristate.noConfusion
  · split
    · exact Tristate.noConfusion
    · exact Tristate.noConfusion

theorem tristate_kept (hone : OneValue kconf) (h : HasValue kconf sym val)
    (hval : val = ['y'] ∨ val = ['m']) : (tristate kconf sym).kept = some val := by
  rw [tristate]
  rcases hval with rfl | rfl
  · rw [if_pos h]
    rfl
  · rw [if_neg fun hy => absurd (hone _ _ _ h hy) (by decide), if_pos h]
    rfl

/-- The entries are settings of the configuration, one for a symbol. -/
structure Kept (kconf : List Char) (t : HTable) : Prop where
  config : ∀ e ∈ t.entries, configPrefix.isPrefixOf e.1
  value : ∀ e ∈ t.entries, HasValue kconf e.1 e.2
  set : ∀ e ∈ t.entries, e.2 = ['y'] ∨ e.2 = ['m']
  nodup : (t.entries.map Prod.fst).Nodup

theorem HTable.find_isSome : (t.find sym).isSome ↔ sym ∈ t.entries.map Prod.fst := by
  simp [HTable.find]

theorem Kept.find (h : Kept kconf t) (hone : OneValue kconf) (hfind : t.find sym = some val) :
    (tristate kconf sym).kept = some val := by
  obtain ⟨l₁, l₂, hl, -⟩ := List.lookup_eq_some_iff.mp hfind
  have hmem : (sym, val) ∈ t.entries := hl ▸ List.mem_append_right l₁ List.mem_cons_self
  exact tristate_kept hone (h.value _ hmem) (h.set _ hmem)

/-- A setting of a symbol without an entry fits into the table. -/
theorem Kept.enter (h : Kept kconf t) (hroom : Room t.size kconf)
    (hnew : t.find sym = none) (hconfig : configPrefix.isPrefixOf sym)
    (hval : HasValue kconf sym val) (hset : val = ['y'] ∨ val = ['m']) :
    ∃ t', t.enter sym val = .ok t' ∧ t'.size = t.size ∧
      t'.entries = (sym, val) :: t.entries ∧ Kept kconf t' := by
  have hnew' : sym ∉ t.entries.map Prod.fst := by
    rw [← HTable.find_isSome, hnew]
    exact Bool.false_ne_true
  have hkept : Kept kconf { t with entries := (sym, val) :: t.entries } := {
    config := List.forall_mem_cons.mpr ⟨hconfig, h.config⟩
    value := List.forall_mem_cons.mpr ⟨hval, h.value⟩
    set := List.forall_mem_cons.mpr ⟨hset, h.set⟩
    nodup := List.nodup_cons.mpr ⟨hnew', h.nodup⟩ }
  obtain ⟨syms, hlen, hsyms⟩ := hroom
  have hsub : ((sym, val) :: t.entries).map Prod.fst ⊆ syms := by
    intro key hkey
    obtain ⟨e, he, rfl⟩ := List.mem_map.mp hkey
    exact hsyms e.1 (hkept.config e he) (tristate_ne_n (hkept.value e he) (hkept.set e he))
  have hle := (List.subperm_of_subset hkept.nodup hsub).length_le
  rw [List.length_map, List.length_cons] at hle
  exact ⟨_, if_pos (by omega), rfl, rfl, hkept⟩

/-- What the table gives up to a line: the entries so far stay, and what the
line sets to `y` or `m` has one. -/
structure Grows (t t' : HTable) (line : List Char) : Prop where
  size : t'.size = t.size
  old : ∀ sym, (t.find sym).isSome → (t'.find sym).isSome
  new : ∀ sym val, Sets line sym val → configPrefix.isPrefixOf sym →
    val = ['y'] ∨ val = ['m'] → (t'.find sym).isSome

theorem Grows.refl (h : ∀ sym val, Sets line sym val → configPrefix.isPrefixOf sym →
    val = ['y'] ∨ val = ['m'] → (t.find sym).isSome) : Grows t t line :=
  ⟨rfl, fun _ hsym => hsym, h⟩

theorem hashLine_ok (h : Kept kconf t) (hroom : Room t.size kconf) (hline : line ∈ lines kconf) :
    ∃ t', hashLine t line = .ok t' ∧ Kept kconf t' ∧ Grows t t' line := by
  rw [hashLine]
  cases hscan : scanSetting line with
  | none =>
    refine ⟨t, rfl, h, .refl fun sym val hsets _ _ => ?_⟩
    rw [sets_iff, hscan] at hsets
    contradiction
  | some e =>
    obtain ⟨sym, val⟩ := e
    have hval : HasValue kconf sym val := ⟨line, hline, sets_iff.mpr hscan⟩
    have huniq {sym' val'} (h : Sets line sym' val') : sym = sym' ∧ val = val' := by
      rw [sets_iff, hscan] at h
      exact Prod.mk.inj (Option.some.inj h)
    simp only
    split
    · next hconfig =>
      refine ⟨t, rfl, h, .refl fun sym' val' hsets hconfig' _ => ?_⟩
      rw [(huniq hsets).1, hconfig'] at hconfig
      contradiction
    · next hconfig =>
      split
      · next hym =>
        refine ⟨t, rfl, h, .refl fun sym' val' hsets _ hym' => ?_⟩
        rw [← (huniq hsets).2] at hym'
        exact absurd hym' (not_or.mpr hym)
      · next hym =>
        split
        · next hfound =>
          refine ⟨t, rfl, h, .refl fun sym' val' hsets _ _ => ?_⟩
          rwa [← (huniq hsets).1]
        · next hnew =>
          rw [Bool.not_eq_true, Option.isSome_eq_false_iff, Option.isNone_iff_eq_none] at hnew
          rw [← not_or, not_not] at hym
          obtain ⟨t', ht', hsize, hentries, hkept⟩ :=
            h.enter hroom hnew (by simpa using hconfig) hval hym
          refine ⟨t', ht', hkept, hsize, fun sym' hsym' => ?_, fun sym' val' hsets _ _ => ?_⟩
          · rw [HTable.find_isSome] at hsym' ⊢
            rw [hentries]
            exact List.mem_cons_of_mem _ hsym'
          · rw [HTable.find_isSome, hentries, ← (huniq hsets).1]
            exact List.mem_cons_self

/-- A line that sets a symbol of the kernel is no comment. -/
theorem Sets.head?_eq (h : Sets line sym val) (hconfig : configPrefix.isPrefixOf sym) :
    line.head? = some 'C' := by
  obtain ⟨gap, tail, rfl, -⟩ := h
  obtain ⟨name, rfl⟩ := List.isPrefixOf_iff_prefix.mp hconfig
  rfl

/-- The loop never fails, and every symbol that a line sets to `y` or `m` has an
entry after it. -/
theorem hashLoop_ok {bufs : List (List Char)} {arch : Option (List Char)} (h : Kept kconf t)
    (hroom : Room t.size kconf) (hbufs : ∀ buf ∈ bufs, buf ∈ lines kconf) :
    ∃ t' arch', hashLoop bufs t arch = .ok (t', arch') ∧ Kept kconf t' ∧
      (∀ sym, (t.find sym).isSome → (t'.find sym).isSome) ∧
      ∀ buf ∈ bufs, ∀ sym val, Sets buf sym val → configPrefix.isPrefixOf sym →
        val = ['y'] ∨ val = ['m'] → (t'.find sym).isSome := by
  induction bufs generalizing t arch with
  | nil => exact ⟨t, arch, rfl, h, fun _ hsym => hsym, fun _ hbuf => absurd hbuf List.not_mem_nil⟩
  | cons buf bufs ih =>
    obtain ⟨hbuf, hbufs⟩ := List.forall_mem_cons.mp hbufs
    rw [hashLoop]
    split
    · next hcomment =>
      obtain ⟨t', arch', hloop, hkept, hold, hnew⟩ := ih h hroom hbufs
      refine ⟨t', arch', hloop, hkept, hold, List.forall_mem_cons.mpr ⟨?_, hnew⟩⟩
      intro sym val hsets hconfig _
      rw [hsets.head?_eq hconfig] at hcomment
      exact absurd hcomment (by decide)
    · obtain ⟨t₁, hline, hkept₁, hgrows⟩ := hashLine_ok h hroom hbuf
      obtain ⟨t', arch', hloop, hkept, hold, hnew⟩ := ih hkept₁ (hgrows.size ▸ hroom) hbufs
      refine ⟨t', arch', ?_, hkept, fun sym hsym => hold sym (hgrows.old sym hsym),
        List.forall_mem_cons.mpr ⟨fun sym val hsets hconfig hym =>
          hold sym (hgrows.new sym val hsets hconfig hym), hnew⟩⟩
      rw [hline]
      exact hloop

theorem tristate_cases (kconf sym : List Char) :
    tristate kconf sym = .n ∨
      ∃ val, HasValue kconf sym val ∧ (val = ['y'] ∨ val = ['m']) := by
  rw [tristate]
  split
  · next h => exact .inr ⟨_, h, .inl rfl⟩
  · split
    · next h => exact .inr ⟨_, h, .inr rfl⟩
    · exact .inl rfl

/-- The table of a configuration holds what the symbols of the kernel are set to. -/
theorem hashConfig_ok {capacity : ℕ → ℕ} (hone : OneValue kconf) (hshort : ShortLines kconf)
    (hroom : Room (capacity size) kconf) :
    ∃ t arch, hashConfig capacity size kconf = .ok (t, arch) ∧
      ∀ sym, configPrefix.isPrefixOf sym → t.find sym = (tristate kconf sym).kept := by
  have hempty : Kept kconf { size := capacity size, entries := [] } :=
    ⟨by simp, by simp, by simp, by simp⟩
  rw [hashConfig, buffers_eq hshort]
  obtain ⟨t, arch, hloop, hkept, -, hnew⟩ := hashLoop_ok hempty hroom fun _ h => h
  refine ⟨t, arch, hloop, fun sym hconfig => ?_⟩
  · cases hfind : t.find sym with
    | some val => exact (hkept.find hone hfind).symm
    | none =>
      rcases tristate_cases kconf sym with hn | ⟨val, ⟨line, hline, hsets⟩, hym⟩
      · rw [hn]
        rfl
      · have := hnew line hline sym val hsets hconfig hym
        rw [hfind] at this
        contradiction

end Table

end Libevl.EvlCheck
