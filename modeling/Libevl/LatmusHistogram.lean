import Libevl.LatmusStats
import Mathlib.Algebra.BigOperators.Group.List.Basic
import Mathlib.Data.List.Nodup

/-!
# Histograms of latmus

Beside the measurement, each sample counts in the cell of its absolute value in
microseconds, and in the last cell beyond the others. At the end `dump_gnuplot`
writes the cells as rows, with one column for each of some statistics, and leaves
out the rows of zeros at both ends. No sample is lost on the way to the rows.
-/
namespace Libevl.LatmusStats

/-- The cell of a sample. -/
def cellOf (hCells : ℕ) (dt : ℤ) : ℕ :=
  let cell := dt.natAbs / 1000
  if cell ≥ hCells then hCells - 1 else cell

/-- `add_measurement_histogram`, on the measurement and the histogram, if there is one. -/
def addMeasurementHistogram (bits : ℕ) (s : Measurement × Option (List ℤ)) (dt : ℤ) :
    Measurement × Option (List ℤ) :=
  (addMeasurement bits s.1 dt,
    s.2.map fun h => h.modify (cellOf h.length dt) fun n => s32 (n + 1))

/-- A row of the plot: a cell, whether a `+` follows, and the counts. -/
structure Row where
  cell : ℕ
  plus : Bool
  counts : List ℤ
  deriving DecidableEq, Repr

/-- Some of the histograms has a count in a cell. -/
def occupied (sts : List (Statistics × List ℤ)) (n : ℕ) : Bool :=
  sts.any fun st => st.2.getD n 0 ≠ 0

def firstCell (sts : List (Statistics × List ℤ)) (hCells : ℕ) : ℕ :=
  ((List.range hCells).find? (occupied sts)).getD 0

def lastCell (sts : List (Statistics × List ℤ)) (hCells : ℕ) : ℕ :=
  ((List.range hCells).reverse.find? (occupied sts)).getD 0

/-- Whether a maximum is beyond the cells, as a `size_t`. -/
def beyond (hCells : ℕ) (st : Statistics) : Bool :=
  hCells ≤ ((st.allMaxlat.tdiv 1000) % 2 ^ 64).toNat

/-- The rows that `dump_gnuplot` writes. -/
def dumpRows (sts : List (Statistics × List ℤ)) (hCells : ℕ) : List Row :=
  let first := firstCell sts hCells
  let last := lastCell sts hCells
  let outliers := sts.any fun st => beyond hCells st.1
  (List.range' first (last - first)).map (fun n => ⟨n, false, sts.map (·.2.getD n 0)⟩) ++
    [⟨last, outliers, sts.map (·.2.getD last 0)⟩]

section Counting

variable {hCells : ℕ} {hist xs : List ℤ}

theorem cellOf_lt (hpos : 0 < hCells) (dt : ℤ) : cellOf hCells dt < hCells := by
  unfold cellOf
  dsimp only
  split_ifs <;> omega

/-- A histogram with the counts of some samples, as far as they fit. -/
def Counts (hist : List ℤ) (xs : List ℤ) : Prop :=
  ∀ n, hist.getD n 0 = s32 (xs.countP (cellOf hist.length · = n) : ℕ)

theorem counts_initial (hCells : ℕ) : Counts (List.replicate hCells 0) [] := by
  intro n
  rw [List.countP_nil, Nat.cast_zero, s32_of_fits (by decide), List.getD_eq_getElem?_getD,
    List.getElem?_replicate]
  split_ifs <;> rfl

theorem Counts.add {dt : ℤ} (h : Counts hist xs) (hpos : 0 < hist.length) :
    Counts (hist.modify (cellOf hist.length dt) fun n => s32 (n + 1)) (xs ++ [dt]) := by
  intro n
  have hn := h n
  rw [List.length_modify, List.countP_append, List.countP_singleton]
  rw [List.getD_eq_getElem?_getD] at hn ⊢
  rw [List.getElem?_modify, Option.map_eq_map]
  by_cases hcell : cellOf hist.length dt = n
  · have hlt : n < hist.length := hcell ▸ cellOf_lt hpos dt
    rw [List.getElem?_eq_getElem hlt, Option.getD_some] at hn
    rw [List.getElem?_eq_getElem hlt, Option.map_some, Option.getD_some, if_pos hcell, hn,
      if_pos (decide_eq_true hcell), Nat.cast_add, Nat.cast_one]
    exact Int.bmod_add_bmod
  · simp only [hcell, if_false, decide_false, Bool.false_eq_true, Nat.add_zero, ← hn]
    cases hist[n]? <;> rfl

/-- The counts themselves, of few enough samples. -/
theorem Counts.exact (h : Counts hist xs) (hlen : xs.length < 2 ^ 31) (n : ℕ) :
    hist.getD n 0 = (xs.countP (cellOf hist.length · = n) : ℕ) := by
  have hle : xs.countP (cellOf hist.length · = n) ≤ xs.length := List.countP_le_length
  rw [h n, s32_of_fits (by omega)]

theorem sum_ite_eq_count {β : Type*} [DecidableEq β] (a : β) (bs : List β) :
    (bs.map fun b => if a = b then 1 else 0).sum = bs.count a := by
  induction bs with
  | nil => rfl
  | cons b bs ih =>
    rw [List.map_cons, List.sum_cons, ih, List.count_cons, Nat.add_comm]
    simp only [beq_iff_eq, eq_comm (a := b)]

/-- Every sample has its cell. -/
theorem sum_countP_eq_length {α β : Type*} [DecidableEq β] (f : α → β) {bs : List β} {xs : List α}
    (hbs : bs.Nodup) (h : ∀ x ∈ xs, f x ∈ bs) :
    (bs.map fun b => xs.countP (f · = b)).sum = xs.length := by
  induction xs with
  | nil => simp
  | cons x xs ih =>
    have hone : (bs.map fun b => if f x = b then 1 else 0).sum = 1 :=
      (sum_ite_eq_count (f x) bs).trans (List.count_eq_one_of_mem hbs (h x List.mem_cons_self))
    simp only [List.countP_cons, decide_eq_true_eq, List.sum_map_add,
      ih fun y hy => h y (List.mem_cons_of_mem x hy), hone, List.length_cons]

end Counting

section Window

variable {sts : List (Statistics × List ℤ)} {hCells n : ℕ}

/-- In a list in order, a search finds the first member with the property. -/
theorem eq_or_rel_of_find? {α : Type*} {R : α → α → Prop} {l : List α} {p : α → Bool} {a b : α}
    (hl : l.Pairwise R) (h : l.find? p = some a) (hb : b ∈ l) (hpb : p b = true) :
    b = a ∨ R a b := by
  obtain ⟨-, as, bs, rfl, hno⟩ := List.find?_eq_some_iff_append.mp h
  rcases List.mem_append.mp hb with hmem | hmem
  · exact absurd hpb (by simpa using hno b hmem)
  · rcases List.mem_cons.mp hmem with rfl | hmem
    · exact .inl rfl
    · exact .inr ((List.pairwise_cons.mp (List.pairwise_append.mp hl).2.1).1 b hmem)

/-- The window covers whatever is not zero, and its ends are not zero unless everything is. -/
theorem window_spec (hpos : 0 < hCells) :
    firstCell sts hCells ≤ lastCell sts hCells ∧ lastCell sts hCells < hCells ∧
    (∀ n < hCells, occupied sts n = true → firstCell sts hCells ≤ n ∧ n ≤ lastCell sts hCells) ∧
    ((∃ n < hCells, occupied sts n = true) →
      occupied sts (firstCell sts hCells) = true ∧ occupied sts (lastCell sts hCells) = true) := by
  unfold firstCell lastCell
  cases hfirst : (List.range hCells).find? (occupied sts) with
  | none =>
    have hno : ∀ n < hCells, ¬ occupied sts n = true := by simpa using hfirst
    have hlast : (List.range hCells).reverse.find? (occupied sts) = none := by simpa using hno
    rw [hlast]
    exact ⟨le_rfl, hpos, fun n hn h => absurd h (hno n hn), fun ⟨n, hn, h⟩ => absurd h (hno n hn)⟩
  | some a =>
    have ha := List.find?_some hfirst
    have halt := List.mem_range.mp (List.mem_of_find?_eq_some hfirst)
    cases hlast : (List.range hCells).reverse.find? (occupied sts) with
    | none =>
      have hno : ∀ n < hCells, ¬ occupied sts n = true := by simpa using hlast
      exact absurd ha (hno a halt)
    | some b =>
      have hb := List.find?_some hlast
      have hblt : b < hCells := by simpa using List.mem_of_find?_eq_some hlast
      have hleast : ∀ n < hCells, occupied sts n = true → a ≤ n := by
        intro n hn h
        exact (eq_or_rel_of_find? List.pairwise_lt_range hfirst (List.mem_range.mpr hn) h).elim
          (fun he => he.ge) Nat.le_of_lt
      have hgreatest : ∀ n < hCells, occupied sts n = true → n ≤ b := by
        intro n hn h
        have hrev : (List.range hCells).reverse.Pairwise (fun i j => j < i) :=
          List.pairwise_reverse.mpr List.pairwise_lt_range
        exact (eq_or_rel_of_find? hrev hlast (by simpa using hn) h).elim
          (fun he => he.le) Nat.le_of_lt
      exact ⟨hleast b hblt hb, hblt, fun n hn h => ⟨hleast n hn h, hgreatest n hn h⟩,
        fun _ => ⟨ha, hb⟩⟩

variable {cols : List (List ℤ)}

/-- What the rows of a plot say about the samples of the columns. -/
structure Plots (hCells : ℕ) (rows : List Row) (cols : List (List ℤ)) : Prop where
  cells : ∃ first, rows.map Row.cell = List.range' first rows.length ∧
    first + rows.length ≤ hCells
  counts : ∀ r ∈ rows,
    r.counts = cols.map fun xs => ((xs.countP (cellOf hCells · = r.cell) : ℕ) : ℤ)
  total : ∀ xs ∈ cols, (rows.map fun r => xs.countP (cellOf hCells · = r.cell)).sum = xs.length
  trimmed : (∃ xs ∈ cols, xs ≠ []) →
    (∀ r ∈ rows.head?, ∃ n ∈ r.counts, n ≠ 0) ∧ ∀ r ∈ rows.getLast?, ∃ n ∈ r.counts, n ≠ 0
  plus : ∀ r ∈ rows, r.plus = true ↔ rows.getLast? = some r ∧
    ∃ xs ∈ cols, (∃ x ∈ xs, 1000 * (hCells : ℤ) ≤ x) ∨ ∀ x ∈ xs, x ≤ -1000

/-- The statistics and the histogram of a test with these samples. -/
structure Column (hCells : ℕ) (st : Statistics × List ℤ) (xs : List ℤ) : Prop where
  length : st.2.length = hCells
  counts : Counts st.2 xs
  max : IsGreatest (insert (-tenMillions) {x | x ∈ xs}) st.1.allMaxlat
  few : xs.length < 2 ^ 31
  fits : ∀ x ∈ xs, -2 ^ 31 ≤ x ∧ x < 2 ^ 31

theorem beyond_eq {st : Statistics} (hpos : 0 < hCells) (hbig : hCells < 2 ^ 31)
    (hm : -2 ^ 31 ≤ st.allMaxlat ∧ st.allMaxlat < 2 ^ 31) :
    beyond hCells st = true ↔ 1000 * (hCells : ℤ) ≤ st.allMaxlat ∨ st.allMaxlat ≤ -1000 := by
  rw [beyond, decide_eq_true_iff]
  rcases le_or_gt 0 st.allMaxlat with h | h
  · rw [Int.tdiv_eq_ediv_of_nonneg h]
    omega
  · rw [← neg_neg st.allMaxlat, Int.neg_tdiv, Int.tdiv_eq_ediv_of_nonneg (by omega)]
    omega

/-- A maximum that is far below zero is also taken for one beyond the cells. -/
theorem Column.beyond_iff {st : Statistics × List ℤ} {xs : List ℤ} (c : Column hCells st xs)
    (hpos : 0 < hCells) (hbig : hCells < 2 ^ 31) :
    beyond hCells st.1 = true ↔ (∃ x ∈ xs, 1000 * (hCells : ℤ) ≤ x) ∨ ∀ x ∈ xs, x ≤ -1000 := by
  have hfits : -2 ^ 31 ≤ st.1.allMaxlat ∧ st.1.allMaxlat < 2 ^ 31 := by
    rcases c.max.1 with h | h
    · rw [h]
      decide
    · exact c.fits _ h
  rw [beyond_eq hpos hbig hfits]
  constructor
  · rintro (h | h)
    · left
      rcases c.max.1 with heq | hmem
      · rw [heq, tenMillions] at h
        omega
      · exact ⟨_, hmem, h⟩
    · right
      intro x hx
      exact (c.max.2 (Set.mem_insert_of_mem _ hx)).trans h
  · rintro (⟨x, hx, h⟩ | h)
    · exact .inl (h.trans (c.max.2 (Set.mem_insert_of_mem _ hx)))
    · right
      rcases c.max.1 with heq | hmem
      · rw [heq]
        decide
      · exact h _ hmem

section Columns

variable {sts : List (Statistics × List ℤ)} {cols : List (List ℤ)} {hCells : ℕ}

theorem map_getD_eq (h : List.Forall₂ (Column hCells) sts cols) (n : ℕ) :
    sts.map (·.2.getD n 0) =
      cols.map fun xs => ((xs.countP (cellOf hCells · = n) : ℕ) : ℤ) := by
  induction h with
  | nil => rfl
  | cons c _ ih =>
    rw [List.map_cons, List.map_cons, ih, c.counts.exact c.few, c.length]

/-- The cells which are not zero are those of the samples. -/
theorem occupied_iff (h : List.Forall₂ (Column hCells) sts cols) (n : ℕ) :
    occupied sts n = true ↔ ∃ xs ∈ cols, ∃ x ∈ xs, cellOf hCells x = n := by
  have hany : occupied sts n = (sts.map (·.2.getD n 0)).any (· ≠ 0) := by
    rw [List.any_map]
    rfl
  rw [hany, map_getD_eq h]
  simp [List.countP_eq_zero]

theorem any_beyond_iff (h : List.Forall₂ (Column hCells) sts cols) (hpos : 0 < hCells)
    (hbig : hCells < 2 ^ 31) :
    (sts.any fun st => beyond hCells st.1) = true ↔
      ∃ xs ∈ cols, (∃ x ∈ xs, 1000 * (hCells : ℤ) ≤ x) ∨ ∀ x ∈ xs, x ≤ -1000 := by
  induction h with
  | nil => simp
  | cons c _ ih =>
    rw [List.any_cons, Bool.or_eq_true, ih, c.beyond_iff hpos hbig, List.exists_mem_cons_iff]

theorem mem_dumpRows {r : Row} (hr : r ∈ dumpRows sts hCells) :
    r.counts = sts.map (·.2.getD r.cell 0) := by
  rcases List.mem_append.mp hr with hmem | hmem
  · obtain ⟨n, -, rfl⟩ := List.mem_map.mp hmem
    rfl
  · obtain rfl := List.mem_singleton.mp hmem
    rfl

theorem getLast?_dumpRows : (dumpRows sts hCells).getLast? =
    some ⟨lastCell sts hCells, sts.any fun st => beyond hCells st.1,
      sts.map (·.2.getD (lastCell sts hCells) 0)⟩ := by
  rw [dumpRows, List.getLast?_append, List.getLast?_singleton, Option.some_or]

theorem map_cell_dumpRows (hle : firstCell sts hCells ≤ lastCell sts hCells) :
    (dumpRows sts hCells).map Row.cell = List.range' (firstCell sts hCells)
      (lastCell sts hCells - firstCell sts hCells + 1) := by
  rw [dumpRows, List.map_append, List.map_map, List.range'_1_concat]
  congr 1
  · exact List.map_id _
  · rw [List.map_singleton, Nat.add_sub_cancel' hle]

/-- The rows of any columns. -/
theorem dumpRows_plots (h : List.Forall₂ (Column hCells) sts cols) (hpos : 0 < hCells)
    (hbig : hCells < 2 ^ 31) : Plots hCells (dumpRows sts hCells) cols := by
  obtain ⟨hle, hlast, hwindow, hends⟩ := @window_spec sts hCells hpos
  have hcells := map_cell_dumpRows hle
  have hlength : (dumpRows sts hCells).length =
      lastCell sts hCells - firstCell sts hCells + 1 := by
    rw [← List.length_map Row.cell, hcells, List.length_range']
  have hcounts : ∀ r ∈ dumpRows sts hCells,
      r.counts = cols.map fun xs => ((xs.countP (cellOf hCells · = r.cell) : ℕ) : ℤ) := by
    intro r hr
    rw [mem_dumpRows hr, map_getD_eq h]
  refine ⟨⟨_, by rw [hcells, hlength], by omega⟩, hcounts, ?_, ?_, ?_⟩
  · intro xs hxs
    have hmap : (dumpRows sts hCells).map (fun r => xs.countP (cellOf hCells · = r.cell)) =
        ((dumpRows sts hCells).map Row.cell).map fun n => xs.countP (cellOf hCells · = n) := by
      rw [List.map_map]
      rfl
    rw [hmap, hcells]
    refine sum_countP_eq_length (cellOf hCells) List.nodup_range' fun x hx => ?_
    have hx := hwindow _ (cellOf_lt hpos x) ((occupied_iff h _).mpr ⟨xs, hxs, x, hx, rfl⟩)
    rw [List.mem_range'_1]
    omega
  · rintro ⟨xs, hxs, hne⟩
    obtain ⟨x, hx⟩ := List.exists_mem_of_ne_nil xs hne
    obtain ⟨hfirst, hlast⟩ := hends ⟨cellOf hCells x, cellOf_lt hpos x,
      (occupied_iff h _).mpr ⟨xs, hxs, x, hx, rfl⟩⟩
    have hnonzero : ∀ r ∈ dumpRows sts hCells, occupied sts r.cell = true →
        ∃ n ∈ r.counts, n ≠ 0 := by
      intro r hr hocc
      obtain ⟨st, hst, hn⟩ := List.any_eq_true.mp hocc
      rw [mem_dumpRows hr]
      exact ⟨_, List.mem_map_of_mem hst, of_decide_eq_true hn⟩
    constructor
    · intro r hr
      have hcell : r.cell = firstCell sts hCells := by
        have hhead := congrArg List.head? hcells
        rw [List.head?_map, Option.mem_def.mp hr, List.head?_range'] at hhead
        simpa using hhead
      exact hnonzero r (List.mem_of_mem_head? hr) (hcell ▸ hfirst)
    · intro r hr
      have hcell : r.cell = lastCell sts hCells := by
        rw [getLast?_dumpRows, Option.mem_some] at hr
        rw [← hr]
      exact hnonzero r (List.mem_of_getLast? hr) (hcell ▸ hlast)
  · intro r hr
    rw [getLast?_dumpRows, ← any_beyond_iff h hpos hbig]
    rcases List.mem_append.mp hr with hmem | hmem
    · obtain ⟨n, hn, rfl⟩ := List.mem_map.mp hmem
      rw [List.mem_range'_1] at hn
      have hne : lastCell sts hCells ≠ n := by omega
      simp [hne]
    · obtain rfl := List.mem_singleton.mp hmem
      simp

end Columns

end Window

end Libevl.LatmusStats
