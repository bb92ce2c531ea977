import Libevl.VdsoLookup
import Mathlib.Data.List.Induction

/-!
# Reading the tables of the vDSO

The first load segment gives the load offset and the last dynamic segment the
dynamic table, whose last entry of each kind counts. What is missing makes the
parser refuse the object.
-/
namespace Libevl.Vdso

section Init

variable {m : Memory} {info v : VdsoInfo} {base off d fuel : ℕ} {es : List Dyn} {ps : List Phdr}

/-- The program headers. -/
def segments (m : Memory) (base : ℕ) : List Phdr :=
  (List.range (m.ehdr base).phnum).map
    fun i => m.phdr ((base + (m.ehdr base).phoff) % 2 ^ 64 + 56 * i)

def loadSegment (ps : List Phdr) : Option Phdr := ps.find? (·.type = ptLoad)
def dynamicSegment (ps : List Phdr) : Option Phdr := (ps.filter (·.type = ptDynamic)).getLast?

def offsetOf (base : ℕ) (p : Phdr) : ℕ := (base + p.offset + (2 ^ 64 - p.vaddr)) % 2 ^ 64

/-- Where a segment is mapped. -/
def segmentAt (base : ℕ) (p : Phdr) : ℕ := (base + p.offset) % 2 ^ 64

theorem foldl_scanSegment (base : ℕ) (info : VdsoInfo) (ps : List Phdr) :
    ps.foldl (scanSegment base) ⟨info, false, 0⟩ =
      ⟨{ info with loadOffset := (loadSegment ps).elim info.loadOffset (offsetOf base) },
        (loadSegment ps).isSome, (dynamicSegment ps).elim 0 (segmentAt base)⟩ := by
  induction ps using List.reverseRecOn with
  | nil => rfl
  | append_singleton ps p ih =>
    rw [List.foldl_append, ih]
    have hload : loadSegment (ps ++ [p]) =
        (loadSegment ps).or (if p.type = ptLoad then some p else none) := by
      by_cases h : p.type = ptLoad <;> simp [loadSegment, List.find?_append, h]
    have hdyn : dynamicSegment (ps ++ [p]) =
        if p.type = ptDynamic then some p else dynamicSegment ps := by
      by_cases h : p.type = ptDynamic <;> simp [dynamicSegment, h]
    rw [hload, hdyn]
    by_cases h₁ : p.type = ptLoad
    · cases loadSegment ps <;> simp [scanSegment, h₁, offsetOf, ptLoad, ptDynamic]
    · have hne : ptDynamic ≠ ptLoad := by decide
      by_cases h₂ : p.type = ptDynamic
      · simp [scanSegment, h₂, hne, segmentAt]
      · simp [scanSegment, h₁, h₂]

/-- The entries in front of the one which ends the table. -/
def DynTable (m : Memory) : ℕ → List Dyn → Prop
  | d, [] => (m.dyn d).tag = dtNull
  | d, e :: es => m.dyn d = e ∧ e.tag ≠ dtNull ∧ DynTable m (d + 16) es

theorem scanDynamic_eq {s : VdsoInfo × ℕ} (h : DynTable m d es) (hf : es.length < fuel) :
    scanDynamic m fuel d s = some (es.foldl scanEntry s) := by
  induction es generalizing d s fuel with
  | nil =>
    cases fuel with
    | zero => exact absurd hf (Nat.not_lt_zero _)
    | succ fuel => exact if_pos h
  | cons e es ih =>
    cases fuel with
    | zero => exact absurd hf (Nat.not_lt_zero _)
    | succ fuel =>
      obtain ⟨rfl, htag, htail⟩ := h
      rw [scanDynamic, if_neg htag, List.foldl_cons]
      exact ih htail (Nat.lt_of_succ_lt_succ hf)

/-- Where the last entry with some tag leads, or 0. -/
def tableAt (off : ℕ) (es : List Dyn) (tag : ℤ) : ℕ :=
  ((es.filter (·.tag = tag)).getLast?).elim 0 fun e => (e.ptr + off) % 2 ^ 64

theorem tableAt_concat (off : ℕ) (es : List Dyn) (e : Dyn) (tag : ℤ) :
    tableAt off (es ++ [e]) tag =
      if e.tag = tag then (e.ptr + off) % 2 ^ 64 else tableAt off es tag := by
  by_cases h : e.tag = tag <;> simp [tableAt, h]

theorem foldl_scanEntry (info : VdsoInfo) (es : List Dyn) :
    es.foldl scanEntry ({ info with
        symstrings := 0, gnuHash := 0, symtab := 0, versym := 0, verdef := 0 }, 0) =
      ({ info with
        symstrings := tableAt info.loadOffset es dtStrtab
        gnuHash := tableAt info.loadOffset es dtGnuHash
        symtab := tableAt info.loadOffset es dtSymtab
        versym := tableAt info.loadOffset es dtVersym
        verdef := tableAt info.loadOffset es dtVerdef }, tableAt info.loadOffset es dtHash) := by
  induction es using List.reverseRecOn with
  | nil => rfl
  | append_singleton es e ih =>
    rw [List.foldl_append, ih]
    simp only [List.foldl_cons, List.foldl_nil, scanEntry, tableAt_concat]
    split_ifs <;> simp_all [dtStrtab, dtSymtab, dtHash, dtGnuHash, dtVersym, dtVerdef]

/-- What the parser asks of an object with these dynamic entries. -/
def Usable (m : Memory) (base : ℕ) (es : List Dyn) : Prop :=
  (m.ehdr base).identClass = elfClass64 ∧
  ∃ p ∈ loadSegment (segments m base), ∃ q ∈ dynamicSegment (segments m base),
    segmentAt base q ≠ 0 ∧
    tableAt (offsetOf base p) es dtStrtab ≠ 0 ∧ tableAt (offsetOf base p) es dtSymtab ≠ 0 ∧
    (tableAt (offsetOf base p) es dtHash ≠ 0 ∨ tableAt (offsetOf base p) es dtGnuHash ≠ 0)

/-- The tables of an object, as its dynamic entries give them. -/
structure Reads (m : Memory) (off : ℕ) (es : List Dyn) (v : VdsoInfo) : Prop where
  loadOffset : v.loadOffset = off
  symstrings : v.symstrings = tableAt off es dtStrtab
  symtab : v.symtab = tableAt off es dtSymtab
  verdef : v.verdef = tableAt off es dtVerdef
  versym : v.versym = if tableAt off es dtVerdef = 0 then 0 else tableAt off es dtVersym
  gnuHash : v.gnuHash = tableAt off es dtGnuHash
  gnu : v.gnuHash ≠ 0 → v.nbucket = m.word v.gnuHash ∧
    v.gnuBucket = v.gnuHash + 16 + 8 * m.word (v.gnuHash + 8)
  sysv : v.gnuHash = 0 → v.nbucket = m.word (tableAt off es dtHash) ∧
    v.bucket = tableAt off es dtHash + 8 ∧
    v.chain = tableAt off es dtHash + 4 * ((v.nbucket + 2) % 2 ^ 32)

theorem parseTables_eq (off : ℕ) (hoff : info.loadOffset = off) (hinfo : info.valid = false) :
    ∃ v, parseTables m (es.foldl scanEntry ({ info with
        symstrings := 0, gnuHash := 0, symtab := 0, versym := 0, verdef := 0 }, 0)) = v ∧
      (v.valid = true ↔ tableAt off es dtStrtab ≠ 0 ∧ tableAt off es dtSymtab ≠ 0 ∧
        (tableAt off es dtHash ≠ 0 ∨ tableAt off es dtGnuHash ≠ 0)) ∧
      (v.valid = true → Reads m off es v) := by
  subst hoff
  refine ⟨_, rfl, ?_⟩
  rw [foldl_scanEntry]
  unfold parseTables
  dsimp only
  split_ifs with hno hdef hgnu hgnu
  · simp only [hinfo, Bool.false_eq_true, false_iff, false_implies, and_true]
    tauto
  · refine ⟨by simpa using by tauto, fun _ => ?_⟩
    constructor <;> simp_all
    omega
  · refine ⟨by simpa using by tauto, fun _ => ?_⟩
    constructor <;> simp_all
  · refine ⟨by simpa using by tauto, fun _ => ?_⟩
    constructor <;> simp_all
    omega
  · refine ⟨by simpa using by tauto, fun _ => ?_⟩
    constructor <;> simp_all

/-- The parser accepts exactly the usable objects and finds the tables that the last entries of
their kind give; after a refusal no name is found. -/
theorem vdsoInit_iff (hdyn : ∀ q ∈ dynamicSegment (segments m base),
      DynTable m (segmentAt base q) es) (hf : es.length < fuel) :
    ∃ v, vdsoInitFromSysinfoEhdr m fuel info base = some v ∧ (v.valid = true ↔ Usable m base es) ∧
      (v.valid = true → ∃ p ∈ loadSegment (segments m base), Reads m (offsetOf base p) es v) ∧
      (¬ Usable m base es → ∀ k version name, evlLookupVdso m v k version name = some 0) := by
  suffices h : ∃ v, vdsoInitFromSysinfoEhdr m fuel info base = some v ∧
      (v.valid = true ↔ Usable m base es) ∧
      (v.valid = true → ∃ p ∈ loadSegment (segments m base), Reads m (offsetOf base p) es v) by
    obtain ⟨v, hrun, hvalid, hreads⟩ := h
    refine ⟨v, hrun, hvalid, hreads, fun hnot k version name => if_pos ?_⟩
    cases hv : v.valid with
    | false => rfl
    | true => exact absurd (hvalid.mp hv) hnot
  unfold vdsoInitFromSysinfoEhdr
  dsimp only
  by_cases hclass : (m.ehdr base).identClass = elfClass64
  · rw [if_neg (not_not.mpr hclass)]
    have hseg := foldl_scanSegment base { info with valid := false, loadAddr := base }
      (segments m base)
    rw [segments] at hseg
    rw [hseg, ← segments]
    cases hp : loadSegment (segments m base) with
    | none => exact ⟨_, if_pos (.inl rfl), by simp [Usable, hp], by simp⟩
    | some p =>
      cases hq : dynamicSegment (segments m base) with
      | none => exact ⟨_, if_pos (.inr rfl), by simp [Usable, hq], by simp⟩
      | some q =>
        by_cases hzero : segmentAt base q = 0
        · exact ⟨_, if_pos (.inr hzero), by simp [Usable, hq, hzero], by simp⟩
        · have hno : ¬ ((some p).isSome = false ∨ (some q).elim 0 (segmentAt base) = 0) := by
            simpa using hzero
          rw [if_neg hno]
          simp only [Option.elim_some]
          rw [scanDynamic_eq (hdyn q hq) hf]
          obtain ⟨v, hrun, hvalid, hreads⟩ := @parseTables_eq m
            { info with valid := false, loadAddr := base, loadOffset := offsetOf base p } es
            (offsetOf base p) rfl rfl
          refine ⟨v, congrArg some hrun, ?_, fun hv => ⟨p, rfl, hreads hv⟩⟩
          rw [hvalid]
          simp [Usable, hclass, hp, hq, hzero]
  · exact ⟨_, if_pos hclass, by simp [Usable, hclass], by simp⟩

theorem vdsoInit_iff_two : ∃ info,
    vdsoInitFromSysinfoEhdr twoFunctions 8 withoutGnu 4096 = some info ∧ info.valid = true ∧
      info.gnuHash = 9096 := by
  obtain ⟨v, hrun, hvalid, hreads, -⟩ := @vdsoInit_iff twoFunctions withoutGnu 4096 8
    ((List.range 6).map fun i => twoFunctions.dyn (5096 + 16 * i)) (fun q hq => by
      rw [Option.mem_def, show dynamicSegment (segments twoFunctions 4096) = some ⟨2, 1000, 1000⟩ by
        decide] at hq
      cases hq
      exact ⟨rfl, by decide, rfl, by decide, rfl, by decide, rfl, by decide, rfl, by decide,
        rfl, by decide, rfl⟩) (by decide)
  have husable : Usable twoFunctions 4096
      ((List.range 6).map fun i => twoFunctions.dyn (5096 + 16 * i)) :=
    ⟨rfl, ⟨1, 0, 0⟩, by decide, ⟨2, 1000, 1000⟩, by decide, by decide, by decide, by decide,
      by decide⟩
  obtain ⟨p, hp, hr⟩ := hreads (hvalid.mpr husable)
  rw [Option.mem_def, show loadSegment (segments twoFunctions 4096) = some ⟨1, 0, 0⟩ by decide] at hp
  cases hp
  exact ⟨v, hrun, hvalid.mpr husable, hr.gnuHash.trans (by decide)⟩

end Init

end Libevl.Vdso
