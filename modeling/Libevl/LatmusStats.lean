import Mathlib.Algebra.Order.Ring.Int
import Mathlib.Order.Bounds.Basic

/-!
# The statistics of latmus

Samples are collected into a measurement, and a measurement is merged into the
statistics and reset at the end of each bulk. Both keep a running minimum and a
running maximum, which start from ten milliseconds either way: they are the
least and the greatest of the samples and of that start. The kernel header
which declares the measurement is not at hand, so the width of its sample count
is a parameter; the sum of the latencies has 64 bits.
-/
namespace Libevl.LatmusStats

/-- `TEN_MILLIONS`, in nanoseconds. -/
def tenMillions : ℤ := 10000000

/-- Conversions to `__s32` and `__s64`, which wrap. -/
def s32 (x : ℤ) : ℤ := x.bmod (2 ^ 32)
def s64 (x : ℤ) : ℤ := x.bmod (2 ^ 64)

/-- `struct latmus_measurement`. -/
structure Measurement where
  sumLat : ℤ
  minLat : ℤ
  maxLat : ℤ
  overruns : ℕ
  samples : ℕ
  deriving DecidableEq, Repr

/-- `struct statistics`, without its name and its histogram. -/
structure Statistics where
  allMinlat : ℤ
  allMaxlat : ℤ
  allSum : ℤ
  allSamples : ℤ
  allOverruns : ℕ
  peakTime : ℤ
  deriving DecidableEq, Repr

/-- `init_statistics`. -/
def initStatistics : Statistics := ⟨tenMillions, -tenMillions, 0, 0, 0, 0⟩

/-- `reset_measurement`, which sets every member. -/
def resetMeasurement : Measurement := ⟨0, tenMillions, -tenMillions, 0, 0⟩

/-- `add_measurement`. -/
def addMeasurement (bits : ℕ) (meas : Measurement) (dt : ℤ) : Measurement :=
  let meas := { meas with sumLat := s64 (meas.sumLat + dt) }
  let meas := if dt < meas.minLat then { meas with minLat := s32 dt } else meas
  let meas := if dt > meas.maxLat then { meas with maxLat := s32 dt } else meas
  { meas with samples := (meas.samples + 1) % 2 ^ bits }

/-- `__log_results`, or the status the program exits with. `now` is what
`get_elapsed_secs` returns. -/
def logResults (abortThreshold now : ℤ) (st : Statistics) (meas : Measurement) :
    Except ℕ Statistics := do
  let st := if meas.minLat < st.allMinlat then { st with allMinlat := meas.minLat } else st
  let st ←
    if meas.maxLat > st.allMaxlat then
      let st := { st with peakTime := now, allMaxlat := meas.maxLat }
      if abortThreshold ≠ 0 ∧ st.allMaxlat > abortThreshold then throw 102 else pure st
    else pure st
  return { st with
    allSum := s64 (st.allSum + meas.sumLat)
    allSamples := s64 (st.allSamples + meas.samples)
    allOverruns := (st.allOverruns + meas.overruns) % 2 ^ 32 }

/-- The samples up to a cut, and the time there. -/
structure Bulk where
  samples : List ℤ
  now : ℤ
  deriving DecidableEq, Repr

/-- One bulk after the other, each logged and reset at its end. -/
def logBulks (bits : ℕ) (abortThreshold : ℤ) :
    Statistics → Measurement → List Bulk → Except ℕ Statistics
  | st, _, [] => .ok st
  | st, meas, b :: bulks => do
    let meas := b.samples.foldl (addMeasurement bits) meas
    let st ← logResults abortThreshold b.now st meas
    logBulks bits abortThreshold st resetMeasurement bulks

/-- From `init_statistics` and `reset_measurement` on. -/
def collect (bits : ℕ) (abortThreshold : ℤ) (bulks : List Bulk) : Except ℕ Statistics :=
  logBulks bits abortThreshold initStatistics resetMeasurement bulks

/-- All samples, in order. -/
def allOf (bulks : List Bulk) : List ℤ := bulks.flatMap Bulk.samples

/-- The statistics are those of the samples. -/
structure Exact (st : Statistics) (xs : List ℤ) : Prop where
  min : IsLeast {x | x ∈ xs} st.allMinlat
  max : IsGreatest {x | x ∈ xs} st.allMaxlat
  sum : st.allSum = xs.sum
  samples : st.allSamples = xs.length

/-- Some sample is as low as the minimum starts, some is as high as the maximum starts, and
sums and counts fit. -/
structure Covered (bits : ℕ) (bulks : List Bulk) : Prop where
  low : ∃ x ∈ allOf bulks, x ≤ tenMillions
  high : ∃ x ∈ allOf bulks, -tenMillions ≤ x
  sum : -2 ^ 63 ≤ (allOf bulks).sum ∧ (allOf bulks).sum < 2 ^ 63
  count : (allOf bulks).length < 2 ^ 63
  counts : ∀ b ∈ bulks, b.samples.length < 2 ^ bits

section Running

variable {α : Type*} [LinearOrder α] {S : Set α} {s m x : α}

/-- A running minimum which starts from `s` is the minimum when that is not above `s`. -/
theorem isLeast_of_insert (h : IsLeast (insert s S) m) : IsLeast S m ↔ ∃ x ∈ S, x ≤ s := by
  constructor
  · intro hm
    exact ⟨m, hm.1, h.2 (Set.mem_insert s S)⟩
  · rintro ⟨x, hx, hxs⟩
    refine ⟨?_, fun y hy => h.2 (Set.mem_insert_of_mem s hy)⟩
    rcases h.1 with rfl | hm
    · rwa [le_antisymm (h.2 (Set.mem_insert_of_mem m hx)) hxs]
    · exact hm

theorem isGreatest_of_insert (h : IsGreatest (insert s S) m) :
    IsGreatest S m ↔ ∃ x ∈ S, s ≤ x :=
  isLeast_of_insert (α := αᵒᵈ) h

end Running

theorem s32_of_fits {x : ℤ} (h : -2 ^ 31 ≤ x ∧ x < 2 ^ 31) : s32 x = x :=
  Int.bmod_eq_of_le (by omega) (by omega)

/-- A value that fits is kept, and no other one is. -/
theorem s64_eq_self {x : ℤ} : s64 x = x ↔ -2 ^ 63 ≤ x ∧ x < 2 ^ 63 := by
  constructor
  · intro h
    have hle := Int.le_bmod (x := x) (m := 2 ^ 64) (by decide)
    have hlt := Int.bmod_lt (x := x) (m := 2 ^ 64) (by decide)
    rw [← s64, h] at hle hlt
    omega
  · intro h
    exact Int.bmod_eq_of_le (by omega) (by omega)

section Bulks

variable {bits : ℕ} {xs : List ℤ} {meas : Measurement} {st : Statistics} {bulks : List Bulk}

/-- What a measurement says about the samples of its bulk. -/
structure Collected (bits : ℕ) (meas : Measurement) (xs : List ℤ) : Prop where
  sum : meas.sumLat = s64 xs.sum
  min : IsLeast (insert tenMillions {x | x ∈ xs}) meas.minLat
  max : IsGreatest (insert (-tenMillions) {x | x ∈ xs}) meas.maxLat
  samples : meas.samples = xs.length % 2 ^ bits

theorem resetMeasurement_collected : Collected bits resetMeasurement [] where
  sum := rfl
  min := by simp [resetMeasurement]
  max := by simp [resetMeasurement]
  samples := by simp [resetMeasurement]

theorem addMeasurement_eq {dt : ℤ} (h : -2 ^ 31 ≤ dt ∧ dt < 2 ^ 31) :
    addMeasurement bits meas dt =
      { meas with
        sumLat := s64 (meas.sumLat + dt)
        minLat := min dt meas.minLat
        maxLat := max dt meas.maxLat
        samples := (meas.samples + 1) % 2 ^ bits } := by
  by_cases hmin : dt < meas.minLat <;> by_cases hmax : dt > meas.maxLat
  · simp [addMeasurement, hmin, hmax, s32_of_fits h, hmin.le, le_of_lt hmax]
  · simp [addMeasurement, hmin, hmax, s32_of_fits h, hmin.le, not_lt.mp hmax]
  · simp [addMeasurement, hmin, hmax, s32_of_fits h, not_lt.mp hmin, le_of_lt hmax]
  · simp [addMeasurement, hmin, hmax, not_lt.mp hmin, not_lt.mp hmax]

theorem insert_concat (s dt : ℤ) (xs : List ℤ) :
    insert dt (insert s {x | x ∈ xs}) = insert s {x | x ∈ xs ++ [dt]} := by
  ext x
  simp only [Set.mem_insert_iff, Set.mem_ofPred_eq, List.mem_append, List.mem_singleton]
  tauto

/-- One sample more. -/
theorem Collected.add {dt : ℤ} (c : Collected bits meas xs) (h : -2 ^ 31 ≤ dt ∧ dt < 2 ^ 31) :
    Collected bits (addMeasurement bits meas dt) (xs ++ [dt]) := by
  rw [addMeasurement_eq h]
  constructor
  · show s64 (meas.sumLat + dt) = s64 (xs ++ [dt]).sum
    rw [c.sum, List.sum_append, List.sum_singleton]
    exact Int.bmod_add_bmod
  · rw [← insert_concat]
    exact c.min.insert dt
  · rw [← insert_concat]
    exact c.max.insert dt
  · show (meas.samples + 1) % 2 ^ bits = (xs ++ [dt]).length % 2 ^ bits
    rw [c.samples, Nat.mod_add_mod, List.length_append, List.length_singleton]

/-- A whole bulk. -/
theorem foldl_addMeasurement_collected (c : Collected bits meas xs) (ys : List ℤ)
    (h : ∀ y ∈ ys, -2 ^ 31 ≤ y ∧ y < 2 ^ 31) :
    Collected bits (ys.foldl (addMeasurement bits) meas) (xs ++ ys) := by
  induction ys generalizing meas xs with
  | nil => simpa using c
  | cons y ys ih =>
    have hy := ih (c.add (h y (by simp))) fun z hz => h z (by simp [hz])
    simpa using hy

/-- What the statistics say about the bulks logged so far. -/
structure Logged (bits : ℕ) (st : Statistics) (bulks : List Bulk) : Prop where
  sum : st.allSum = s64 (allOf bulks).sum
  min : IsLeast (insert tenMillions {x | x ∈ allOf bulks}) st.allMinlat
  max : IsGreatest (insert (-tenMillions) {x | x ∈ allOf bulks}) st.allMaxlat
  samples : st.allSamples = s64 ((bulks.map fun b => b.samples.length % 2 ^ bits).sum : ℕ)

theorem initStatistics_logged : Logged bits initStatistics [] where
  sum := by simp [initStatistics, allOf, s64]
  min := by simp [initStatistics, allOf]
  max := by simp [initStatistics, allOf]
  samples := by simp [initStatistics, s64]

/-- Without a threshold the merge takes the smaller minimum and the greater maximum. -/
theorem logResults_eq (now : ℤ) (st : Statistics) (meas : Measurement) :
    ∃ st', logResults 0 now st meas = .ok st' ∧
      st'.allMinlat = min meas.minLat st.allMinlat ∧
      st'.allMaxlat = max meas.maxLat st.allMaxlat ∧
      st'.allSum = s64 (st.allSum + meas.sumLat) ∧
      st'.allSamples = s64 (st.allSamples + meas.samples) := by
  by_cases hmin : meas.minLat < st.allMinlat <;> by_cases hmax : meas.maxLat > st.allMaxlat
  · refine ⟨_, by simp only [logResults, hmin, hmax, if_true]; rfl, ?_⟩
    simp [hmin.le, le_of_lt hmax]
  · refine ⟨_, by simp only [logResults, hmin, hmax, if_true, if_false]; rfl, ?_⟩
    simp [hmin.le, not_lt.mp hmax]
  · refine ⟨_, by simp only [logResults, hmin, hmax, if_true, if_false]; rfl, ?_⟩
    simp [not_lt.mp hmin, le_of_lt hmax]
  · refine ⟨_, by simp only [logResults, hmin, hmax, if_false]; rfl, ?_⟩
    simp [not_lt.mp hmin, not_lt.mp hmax]

theorem union_insert (s : ℤ) (b : Bulk) (bulks : List Bulk) :
    insert s {x | x ∈ b.samples} ∪ insert s {x | x ∈ allOf bulks} =
      insert s {x | x ∈ allOf (bulks ++ [b])} := by
  ext x
  simp only [allOf, List.flatMap_append, List.flatMap_singleton, Set.mem_union,
    Set.mem_insert_iff, Set.mem_ofPred_eq, List.mem_append]
  tauto

/-- One bulk more. -/
theorem Logged.log {b : Bulk} (l : Logged bits st bulks) (c : Collected bits meas b.samples) :
    ∃ st', logResults 0 b.now st meas = .ok st' ∧ Logged bits st' (bulks ++ [b]) := by
  obtain ⟨st', hrun, hmin, hmax, hsum, hsamples⟩ := logResults_eq b.now st meas
  refine ⟨st', hrun, ?_, ?_, ?_, ?_⟩
  · rw [hsum, l.sum, c.sum, allOf, allOf, List.flatMap_append, List.flatMap_singleton,
      List.sum_append]
    exact Int.bmod_add_bmod.trans Int.add_bmod_bmod
  · rw [hmin, ← union_insert]
    exact c.min.union l.min
  · rw [hmax, ← union_insert]
    exact c.max.union l.max
  · rw [hsamples, l.samples, c.samples, List.map_append, List.sum_append, List.map_singleton,
      List.sum_singleton, Nat.cast_add]
    exact Int.bmod_add_bmod

theorem logBulks_logged (l : Logged bits st bulks) (more : List Bulk)
    (h : ∀ x ∈ allOf more, -2 ^ 31 ≤ x ∧ x < 2 ^ 31) :
    ∃ st', logBulks bits 0 st resetMeasurement more = .ok st' ∧
      Logged bits st' (bulks ++ more) := by
  induction more generalizing st bulks with
  | nil => exact ⟨st, rfl, by simpa using l⟩
  | cons b more ih =>
    have hb : ∀ x ∈ b.samples, -2 ^ 31 ≤ x ∧ x < 2 ^ 31 := by
      intro x hx
      exact h x (List.mem_flatMap_of_mem List.mem_cons_self hx)
    have hmore : ∀ x ∈ allOf more, -2 ^ 31 ≤ x ∧ x < 2 ^ 31 := by
      intro x hx
      exact h x (List.mem_append_right b.samples hx)
    have c : Collected bits (b.samples.foldl (addMeasurement bits) resetMeasurement) b.samples :=
      foldl_addMeasurement_collected resetMeasurement_collected b.samples hb
    obtain ⟨st₁, hrun₁, l₁⟩ := l.log c
    obtain ⟨st₂, hrun₂, l₂⟩ := ih l₁ hmore
    refine ⟨st₂, ?_, by simpa using l₂⟩
    rw [logBulks, hrun₁]
    exact hrun₂

/-- Counts that are cut off add up to less, unless none was cut off. -/
theorem sum_counts_eq (bits : ℕ) (bulks : List Bulk) :
    (bulks.map fun b => b.samples.length % 2 ^ bits).sum ≤ (allOf bulks).length ∧
      ((bulks.map fun b => b.samples.length % 2 ^ bits).sum = (allOf bulks).length ↔
        ∀ b ∈ bulks, b.samples.length < 2 ^ bits) := by
  induction bulks with
  | nil => simp [allOf]
  | cons b bulks ih =>
    obtain ⟨hle, heq⟩ := ih
    have hpos := Nat.two_pow_pos bits
    have hmod := Nat.mod_le b.samples.length (2 ^ bits)
    have hlt := Nat.mod_lt b.samples.length hpos
    have hcut : b.samples.length % 2 ^ bits = b.samples.length ↔ b.samples.length < 2 ^ bits :=
      Nat.mod_eq_iff_lt hpos.ne'
    simp only [allOf, List.flatMap_cons, List.length_append, List.map_cons, List.sum_cons,
      List.forall_mem_cons] at hle heq ⊢
    rw [← heq, ← hcut]
    omega

theorem Logged.exact_iff_covered (l : Logged bits st bulks) :
    Exact st (allOf bulks) ↔ Covered bits bulks := by
  have hmin := isLeast_of_insert l.min
  have hmax := isGreatest_of_insert l.max
  obtain ⟨hle, hcounts⟩ := sum_counts_eq bits bulks
  have hsamples : st.allSamples = (allOf bulks).length ↔
      (allOf bulks).length < 2 ^ 63 ∧ ∀ b ∈ bulks, b.samples.length < 2 ^ bits := by
    rw [l.samples, ← hcounts]
    constructor
    · intro heq
      have hlt := Int.bmod_lt (x := ((bulks.map fun b => b.samples.length % 2 ^ bits).sum : ℕ))
        (m := 2 ^ 64) (by decide)
      rw [← s64, heq] at hlt
      have hfits : (allOf bulks).length < 2 ^ 63 := by omega
      refine ⟨hfits, ?_⟩
      rw [s64_eq_self.mpr (by omega)] at heq
      exact_mod_cast heq
    · rintro ⟨hfits, heq⟩
      rw [heq]
      exact s64_eq_self.mpr (by omega)
  constructor
  · intro e
    have hs := hsamples.mp e.samples
    refine ⟨hmin.mp e.min, hmax.mp e.max, s64_eq_self.mp (l.sum.symm.trans e.sum), hs.1, hs.2⟩
  · intro c
    exact ⟨hmin.mpr c.low, hmax.mpr c.high, l.sum.trans (s64_eq_self.mpr c.sum),
      hsamples.mpr ⟨c.count, c.counts⟩⟩

end Bulks

/-- However the samples are cut, the statistics are theirs if some of them are within the start
values and nothing wraps, and only then. -/
theorem collect_exact_iff (bits : ℕ) (bulks : List Bulk)
    (h : ∀ x ∈ allOf bulks, -2 ^ 31 ≤ x ∧ x < 2 ^ 31) :
    ∃ st, collect bits 0 bulks = .ok st ∧ (Exact st (allOf bulks) ↔ Covered bits bulks) := by
  have hinit : Logged bits initStatistics [] := initStatistics_logged
  obtain ⟨st, hrun, l⟩ := logBulks_logged hinit bulks h
  exact ⟨st, hrun, Logged.exact_iff_covered l⟩

/-- Two bulks of ordinary latencies, the second with a negative one. -/
def ordinary : List Bulk := [⟨[1200, 900], 1⟩, ⟨[-300, 4000, 700], 2⟩]

theorem collect_exact_iff_ordinary :
    ∃ st, collect 32 0 ordinary = .ok st ∧ Exact st [1200, 900, -300, 4000, 700] := by
  obtain ⟨st, hrun, hexact⟩ := collect_exact_iff 32 ordinary (by decide)
  exact ⟨st, hrun, hexact.mpr ⟨by decide, by decide, by decide, by decide, by decide⟩⟩

/-- Twenty milliseconds, once: the minimum is still where it started. -/
theorem late_sample_lost :
    collect 32 0 [⟨[20000000], 1⟩] = .ok ⟨10000000, 20000000, 20000000, 1, 0, 1⟩ ∧
      ¬ Exact ⟨10000000, 20000000, 20000000, 1, 0, 1⟩ (allOf [⟨[20000000], 1⟩]) := by
  refine ⟨by decide, ?_⟩
  intro e
  have hmem : (10000000 : ℤ) ∈ [20000000] := e.min.1
  exact absurd hmem (by decide)

end Libevl.LatmusStats
