import Libevl.EarlyExit
import Libevl.LatmusHistogram
import Mathlib.Algebra.Order.BigOperators.Group.List

/-!
# The samples of a net test

The runner sends a packet in each period, takes over the timestamps of packets
sent earlier and those of the packet it waits for. They make up four series of
samples, which are logged together about once in a second, if a packet that has
timestamps is received then. The main thread logs them once more at the end of
the test, and nothing keeps the runner from going on meanwhile: the test is a list
of steps, in any order that the two threads take them. Wherever the series are cut,
the figures and the plot are those of all samples if the runner waits at the end,
and a sample over the threshold ends the test as soon as its series is logged.
-/
namespace Libevl.LatmusStats

open Libevl.EarlyExit

/-- The indices of `statistics[]`. -/
inductive StatIndex
  | rxQueuing
  | rxDelivery
  | txQueuing
  | txDelivery
  deriving DecidableEq, Repr

/-- `struct evl_net_iotimes`. -/
structure IoTimes where
  deviceTime : ℤ
  queuingTime : ℤ
  deliveryTime : ℤ
  deriving DecidableEq, Repr

/-- The latency that is taken for each of the statistics. -/
def IoTimes.sample (t : IoTimes) : StatIndex → ℤ
  | .rxQueuing => s64 (t.queuingTime - t.deviceTime)
  | .rxDelivery => s64 (t.deliveryTime - t.deviceTime)
  | .txQueuing => s64 (t.queuingTime - t.deliveryTime)
  | .txDelivery => s64 (t.deviceTime - t.deliveryTime)

/-- One of the statistics with its histogram, and the measurement that is logged to it. -/
structure Series where
  meas : Measurement
  st : Statistics
  histogram : Option (List ℤ)
  deriving DecidableEq, Repr

/-- From `reset_measurement` and `init_statistics` on. -/
def Series.init (hCells : ℕ) : Series :=
  ⟨resetMeasurement, initStatistics,
    if hCells = 0 then none else some (List.replicate hCells 0)⟩

/-- An overrun that `tx` counts. -/
def Series.overrun (bits : ℕ) (s : Series) : Series :=
  { s with meas := { s.meas with overruns := (s.meas.overruns + 1) % 2 ^ bits } }

def Series.add (bits : ℕ) (dt : ℤ) (s : Series) : Series :=
  let s' := addMeasurementHistogram bits (s.meas, s.histogram) dt
  { s with meas := s'.1, histogram := s'.2 }

def Series.log (abortThreshold now : ℤ) (s : Series) : Except ℕ Series := do
  let st ← logResults abortThreshold now s.st s.meas
  return { s with st := st }

def Series.reset (s : Series) : Series := { s with meas := resetMeasurement }

/-- What a thread does with a series at a time. -/
inductive Access
  | overrun
  | add (dt : ℤ)
  | log (now : ℤ)
  | reset
  deriving DecidableEq, Repr

def Series.access (bits : ℕ) (abortThreshold : ℤ) (s : Series) : Access → Except ℕ Series
  | .overrun => return s.overrun bits
  | .add dt => return s.add bits dt
  | .log now => s.log abortThreshold now
  | .reset => return s.reset

/-- `struct latmus_net_desc`, without the socket and the packets. -/
abbrev NetDesc := StatIndex → Series

/-- A step of one of the threads. -/
abbrev NetStep := StatIndex × Access

def netStep (bits : ℕ) (abortThreshold : ℤ) (nd : NetDesc) (step : NetStep) :
    Except ℕ NetDesc := do
  let s ← (nd step.1).access bits abortThreshold step.2
  return Function.update nd step.1 s

/-- A round of the runner: how often the send would block, the timestamps of the packets sent,
those of the received packet if there are any, and the times at which the series are logged if
they are. A runner that waits has come to the end of a round in which nothing more came. -/
structure Round where
  overruns : ℕ
  txTimes : List IoTimes
  rxTimes : Option IoTimes
  now : StatIndex → ℤ

/-- The order in which the statistics are logged. -/
def logOrder : List StatIndex := [.txQueuing, .txDelivery, .rxQueuing, .rxDelivery]

/-- `finalize_last_bulk`, and the first half of the logging in `log_rx_times`. -/
def finalizeLastBulk (now : StatIndex → ℤ) : List NetStep :=
  logOrder.map fun i => (i, .log (now i))

/-- The second half. -/
def resetMeasurements : List NetStep :=
  [(.rxQueuing, .reset), (.rxDelivery, .reset), (.txQueuing, .reset), (.txDelivery, .reset)]

/-- `log_rx_times`. `more_net_data` never refuses a bulk. -/
def logRxTimes (roundsPerSec : ℕ) (now : StatIndex → ℤ) (t : IoTimes) (round : ℕ) :
    List NetStep :=
  [(.rxQueuing, .add (t.sample .rxQueuing)), (.rxDelivery, .add (t.sample .rxDelivery))] ++
    if round % roundsPerSec = 0 then finalizeLastBulk now ++ resetMeasurements else []

/-- `log_tx_times`. -/
def logTxTimes (ts : List IoTimes) : List NetStep :=
  ts.flatMap fun t =>
    [(.txQueuing, .add (t.sample .txQueuing)), (.txDelivery, .add (t.sample .txDelivery))]

/-- `tx`, which would block some times. -/
def tx (overruns : ℕ) : List NetStep := List.replicate overruns (.txDelivery, .overrun)

/-- The loop of `net_runner`. The round is the sequence number as an `unsigned int`. -/
def netRunner (roundsPerSec : ℕ) : ℕ → List Round → List NetStep
  | _, [] => []
  | seq, r :: rounds =>
    tx r.overruns ++ logTxTimes r.txTimes ++
      (match r.rxTimes with
      | none => []
      | some t => logRxTimes roundsPerSec r.now t (seq % 2 ^ 32)) ++
      netRunner roundsPerSec (seq + 1) rounds

/-- `rounds_per_sec`. The period is in microseconds, at most a second. -/
def roundsPerSec (periodUsecs : ℕ) : ℕ := 1000000 / periodUsecs

/-- An order of the steps of two threads. -/
inductive Interleaved {α : Type*} : List α → List α → List α → Prop
  | nil : Interleaved [] [] []
  | left {xs ys zs : List α} (x : α) : Interleaved xs ys zs → Interleaved (x :: xs) ys (x :: zs)
  | right {xs ys zs : List α} (y : α) : Interleaved xs ys zs → Interleaved xs (y :: ys) (y :: zs)

/-- The runner goes through its rounds, and the main thread logs the last bulk: how far they
came, in whichever order they took their steps. -/
def NetOrder (periodUsecs : ℕ) (rounds : List Round) (now : StatIndex → ℤ)
    (steps : List NetStep) : Prop :=
  ∃ order, Interleaved (netRunner (roundsPerSec periodUsecs) 0 rounds) (finalizeLastBulk now)
    order ∧ steps <+: order

/-- The order in which the main thread logs the last bulk while the runner waits. -/
def runnerWaits (periodUsecs : ℕ) (rounds : List Round) (now : StatIndex → ℤ) : List NetStep :=
  netRunner (roundsPerSec periodUsecs) 0 rounds ++ finalizeLastBulk now

/-- `run_net_test`, with the steps that the threads take. -/
def runNetTest (bits : ℕ) (abortThreshold : ℤ) (hCells : ℕ) (steps : List NetStep) :
    Except ℕ NetDesc :=
  steps.foldlM (netStep bits abortThreshold) fun _ => Series.init hCells

/-- The samples of a round. -/
def Round.samples (r : Round) (i : StatIndex) : List ℤ :=
  match i with
  | .rxQueuing | .rxDelivery => r.rxTimes.toList.map (·.sample i)
  | .txQueuing | .txDelivery => r.txTimes.map (·.sample i)

/-- The samples of a test. -/
def netSamples (rounds : List Round) (i : StatIndex) : List ℤ := rounds.flatMap (·.samples i)

def netOverruns (rounds : List Round) (i : StatIndex) : ℕ :=
  match i with
  | .txDelivery => (rounds.map Round.overruns).sum
  | _ => 0

/-- No sample is above two seconds either way. -/
def Fits (xs : StatIndex → List ℤ) : Prop := ∀ i, ∀ x ∈ xs i, -2 ^ 31 ≤ x ∧ x < 2 ^ 31

section OneSeries

variable {bits hCells n : ℕ} {t now : ℤ} {s : Series} {xs cur : List ℤ} {bulks : List Bulk}

/-- A threshold ends the test when a new maximum is over it, and changes nothing else. -/
theorem logResults_threshold (t now : ℤ) (st : Statistics) (meas : Measurement) :
    logResults t now st meas =
      if t ≠ 0 ∧ st.allMaxlat < meas.maxLat ∧ t < meas.maxLat then .error 102
      else logResults 0 now st meas := by
  have hoff : (0 : ℤ) ≠ 0 ↔ False := by decide
  by_cases hmin : meas.minLat < st.allMinlat <;> by_cases hmax : st.allMaxlat < meas.maxLat <;>
    by_cases ht : t ≠ 0 ∧ t < meas.maxLat
  all_goals
    simp only [logResults, gt_iff_lt, hmin, hmax, ht, hoff, if_true, if_false, true_and, false_and,
      and_false]
    try rfl

/-- A histogram with the counts of the samples, if there are cells. -/
def Histogram (hCells : ℕ) (h : Option (List ℤ)) (xs : List ℤ) : Prop :=
  match h with
  | none => hCells = 0
  | some hist => 0 < hCells ∧ hist.length = hCells ∧ Counts hist xs

theorem Histogram.init (hCells : ℕ) : Histogram hCells (Series.init hCells).histogram [] := by
  unfold Series.init
  by_cases h : hCells = 0
  · simp [Histogram, h]
  · rw [if_neg h]
    exact ⟨Nat.pos_of_ne_zero h, List.length_replicate, counts_initial hCells⟩

/-- The bulks that were logged, the samples after them, and how many overruns there were. -/
structure Follows (bits hCells : ℕ) (t : ℤ) (s : Series) (bulks : List Bulk) (cur : List ℤ)
    (n : ℕ) : Prop where
  logged : Logged bits s.st bulks
  collected : Collected bits s.meas cur
  histogram : Histogram hCells s.histogram (allOf bulks ++ cur)
  below : t ≠ 0 → ∀ x ∈ allOf bulks, x ≤ t
  overruns : 32 ≤ bits → (s.st.allOverruns + s.meas.overruns) % 2 ^ 32 = n % 2 ^ 32

/-- Everything was logged. -/
structure Settled (bits hCells : ℕ) (t : ℤ) (s : Series) (bulks : List Bulk) (n : ℕ) : Prop where
  logged : Logged bits s.st bulks
  histogram : Histogram hCells s.histogram (allOf bulks)
  below : t ≠ 0 → ∀ x ∈ allOf bulks, x ≤ t
  overruns : 32 ≤ bits → s.st.allOverruns = n % 2 ^ 32

theorem Follows.init (bits hCells : ℕ) (t : ℤ) :
    Follows bits hCells t (Series.init hCells) [] [] 0 where
  logged := initStatistics_logged
  collected := resetMeasurement_collected
  histogram := Histogram.init hCells
  below _ := by simp [allOf]
  overruns _ := rfl

theorem Follows.add {dt : ℤ} (f : Follows bits hCells t s bulks cur n)
    (h : -2 ^ 31 ≤ dt ∧ dt < 2 ^ 31) :
    Follows bits hCells t (s.add bits dt) bulks (cur ++ [dt]) n where
  logged := f.logged
  collected := f.collected.add h
  histogram := by
    have hh := f.histogram
    rw [← List.append_assoc]
    show Histogram hCells (s.histogram.map _) _
    cases hs : s.histogram with
    | none => rwa [hs] at hh
    | some hist =>
      rw [hs] at hh
      obtain ⟨hpos, hlength, hcounts⟩ := hh
      exact ⟨hpos, by rw [List.length_modify, hlength], hcounts.add (hlength ▸ hpos)⟩
  below := f.below
  overruns hbits := by
    have heq : (addMeasurement bits s.meas dt).overruns = s.meas.overruns := by
      rw [addMeasurement_eq h]
    show (s.st.allOverruns + (addMeasurement bits s.meas dt).overruns) % 2 ^ 32 = n % 2 ^ 32
    rw [heq]
    exact f.overruns hbits

theorem Settled.reset (st : Settled bits hCells t s bulks n) :
    Follows bits hCells t s.reset bulks [] n where
  logged := st.logged
  collected := resetMeasurement_collected
  histogram := by
    rw [List.append_nil]
    exact st.histogram
  below := st.below
  overruns hbits := by
    show (s.st.allOverruns + 0) % 2 ^ 32 = n % 2 ^ 32
    rw [st.overruns hbits, Nat.add_zero, Nat.mod_mod]

theorem Follows.overrun (f : Follows bits hCells t s bulks cur n) :
    Follows bits hCells t (s.overrun bits) bulks cur (n + 1) where
  logged := f.logged
  collected := ⟨f.collected.sum, f.collected.min, f.collected.max, f.collected.samples⟩
  histogram := f.histogram
  below := f.below
  overruns hbits := by
    have hover := f.overruns hbits
    have hmod : (s.meas.overruns + 1) % 2 ^ bits % 2 ^ 32 = (s.meas.overruns + 1) % 2 ^ 32 :=
      Nat.mod_mod_of_dvd _ (Nat.pow_dvd_pow 2 hbits)
    show (s.st.allOverruns + (s.meas.overruns + 1) % 2 ^ bits) % 2 ^ 32 = (n + 1) % 2 ^ 32
    omega

theorem logResults_overruns {st st' : Statistics} {meas : Measurement}
    (h : logResults 0 now st meas = .ok st') :
    st'.allOverruns = (st.allOverruns + meas.overruns) % 2 ^ 32 := by
  have hoff : (0 : ℤ) ≠ 0 ↔ False := by decide
  by_cases hmin : meas.minLat < st.allMinlat <;> by_cases hmax : meas.maxLat > st.allMaxlat
  all_goals
    simp only [logResults, hmin, hmax, hoff, if_true, if_false, false_and] at h
    cases h
    rfl

/-- Logging ends the test exactly if a sample is over the threshold. -/
theorem Follows.log (f : Follows bits hCells t s bulks cur n) (ht : 0 ≤ t) (now : ℤ) :
    Ends (s.log t now)
      (fun s' => Settled bits hCells t s' (bulks ++ [⟨cur, now⟩]) n)
      (fun e => e = 102 ∧ t ≠ 0 ∧ ∃ x ∈ cur, t < x) := by
  have hmax := f.collected.max
  rw [Series.log, logResults_threshold]
  by_cases hover : t ≠ 0 ∧ s.st.allMaxlat < s.meas.maxLat ∧ t < s.meas.maxLat
  · rw [if_pos hover]
    refine ⟨rfl, hover.1, ?_⟩
    rcases hmax.1 with heq | hmem
    · rw [heq, tenMillions] at hover
      omega
    · exact ⟨_, hmem, hover.2.2⟩
  · rw [if_neg hover]
    obtain ⟨st', hrun, hlogged⟩ := f.logged.log (b := ⟨cur, now⟩) f.collected
    have hall : allOf (bulks ++ [⟨cur, now⟩]) = allOf bulks ++ cur := by simp [allOf]
    rw [hrun]
    refine ⟨hlogged, ?_, ?_, fun hbits => ?_⟩
    · show Histogram hCells s.histogram _
      rw [hall]
      exact f.histogram
    · intro htne x hx
      rw [hall, List.mem_append] at hx
      rcases hx with hx | hx
      · exact f.below htne x hx
      · have hle : x ≤ s.meas.maxLat := hmax.2 (Set.mem_insert_of_mem _ hx)
        by_cases hlt : s.st.allMaxlat < s.meas.maxLat
        · exact hle.trans (not_lt.mp fun h => hover ⟨htne, hlt, h⟩)
        · refine hle.trans ((not_lt.mp hlt).trans ?_)
          rcases f.logged.max.1 with heq | hmem
          · rw [heq, tenMillions]
            omega
          · exact f.below htne _ hmem
    · show st'.allOverruns = n % 2 ^ 32
      rw [logResults_overruns hrun]
      exact f.overruns hbits

end OneSeries

section Steps

variable {steps steps' : List NetStep} {i j : StatIndex} {x : ℤ} {a : Access}

/-- The samples that some steps take of a series. -/
def samplesOf (steps : List NetStep) (i : StatIndex) : List ℤ :=
  steps.filterMap fun step =>
    match step with
    | (j, .add dt) => if j = i then some dt else none
    | _ => none

/-- A sample is taken, and its series is logged after it. -/
def Reported (steps : List NetStep) (i : StatIndex) (x : ℤ) : Prop :=
  ∃ before now after, steps = before ++ (i, .log now) :: after ∧ x ∈ samplesOf before i

theorem samplesOf_append (steps steps' : List NetStep) (i : StatIndex) :
    samplesOf (steps ++ steps') i = samplesOf steps i ++ samplesOf steps' i :=
  List.filterMap_append

theorem Reported.append (h : Reported steps i x) (steps' : List NetStep) :
    Reported (steps ++ steps') i x := by
  obtain ⟨before, now, after, rfl, hx⟩ := h
  exact ⟨before, now, after ++ steps', by simp, hx⟩

/-- A step reports what was taken before if it logs. -/
theorem reported_concat : Reported (steps ++ [(j, a)]) i x ↔
    Reported steps i x ∨ (j = i ∧ ∃ now, a = .log now) ∧ x ∈ samplesOf steps i := by
  constructor
  · rintro ⟨before, now, after, heq, hx⟩
    rcases List.eq_nil_or_concat after with rfl | ⟨after, step, rfl⟩
    · obtain ⟨rfl, hstep⟩ := List.append_inj' heq rfl
      rw [List.cons.injEq, Prod.mk.injEq] at hstep
      exact .inr ⟨⟨hstep.1.1, now, hstep.1.2⟩, hx⟩
    · rw [List.concat_eq_append, ← List.cons_append, ← List.append_assoc] at heq
      obtain ⟨rfl, -⟩ := List.append_inj' heq rfl
      exact .inl ⟨before, now, after, rfl, hx⟩
  · rintro (h | ⟨⟨rfl, now, rfl⟩, hx⟩)
    · exact h.append [(j, a)]
    · exact ⟨steps, now, [], rfl, hx⟩

/-- No series is reset while it has samples that were not logged, with such samples of the
`dirty` ones at the start. -/
def NoneLost (dirty : Set StatIndex) : List NetStep → Prop
  | [] => True
  | (_, .overrun) :: steps => NoneLost dirty steps
  | (i, .add _) :: steps => NoneLost (insert i dirty) steps
  | (i, .log _) :: steps => NoneLost (dirty \ {i}) steps
  | (i, .reset) :: steps => i ∉ dirty ∧ NoneLost dirty steps

variable {dirty dirty₂ : Set StatIndex}

theorem NoneLost.mono (h : NoneLost dirty steps) (hsub : dirty₂ ⊆ dirty) :
    NoneLost dirty₂ steps := by
  induction steps generalizing dirty dirty₂ with
  | nil => trivial
  | cons step steps ih =>
    obtain ⟨j, a⟩ := step
    cases a with
    | overrun => exact @ih dirty dirty₂ h hsub
    | add dt => exact @ih (insert j dirty) (insert j dirty₂) h (Set.insert_subset_insert hsub)
    | log now => exact @ih (dirty \ {j}) (dirty₂ \ {j}) h (Set.sdiff_subset_sdiff_left hsub)
    | reset => exact ⟨fun hj => h.1 (hsub hj), ih h.2 hsub⟩

theorem NoneLost.of_append (h : NoneLost dirty (steps ++ steps')) : NoneLost dirty steps := by
  induction steps generalizing dirty with
  | nil => trivial
  | cons step steps ih =>
    obtain ⟨j, a⟩ := step
    cases a with
    | overrun => exact @ih dirty h
    | add dt => exact @ih (insert j dirty) h
    | log now => exact @ih (dirty \ {j}) h
    | reset => exact ⟨h.1, ih h.2⟩

/-- Steps of another thread that log only lose nothing, and take nothing. -/
theorem NoneLost.interleaved {logs order : List NetStep} (hi : Interleaved steps logs order)
    (hlogs : ∀ step ∈ logs, ∃ i now, step = (i, Access.log now)) (h : NoneLost dirty steps) :
    NoneLost dirty order := by
  induction hi generalizing dirty with
  | nil => trivial
  | left step _ ih =>
    obtain ⟨j, a⟩ := step
    cases a with
    | overrun => exact @ih dirty hlogs h
    | add dt => exact @ih (insert j dirty) hlogs h
    | log now => exact @ih (dirty \ {j}) hlogs h
    | reset => exact ⟨h.1, ih hlogs h.2⟩
  | right step _ ih =>
    obtain ⟨⟨j, now, rfl⟩, hrest⟩ := List.forall_mem_cons.mp hlogs
    exact ih hrest (h.mono Set.sdiff_subset)

theorem samplesOf_interleaved {logs order : List NetStep} (hi : Interleaved steps logs order)
    (hlogs : ∀ step ∈ logs, ∃ i now, step = (i, Access.log now)) (i : StatIndex) :
    samplesOf order i = samplesOf steps i := by
  induction hi with
  | nil => rfl
  | left step _ ih =>
    rw [← List.singleton_append, samplesOf_append, ih hlogs, ← samplesOf_append,
      List.singleton_append]
  | right step _ ih =>
    obtain ⟨⟨j, now, rfl⟩, hrest⟩ := List.forall_mem_cons.mp hlogs
    exact ih hrest

/-- A step that takes a sample or counts an overrun. -/
def Collects (step : NetStep) : Prop :=
  step.2 = .overrun ∨ ∃ dt, step.2 = .add dt

theorem NoneLost.of_collects (hsteps : ∀ step ∈ steps, Collects step)
    (h : ∀ dirty, NoneLost dirty steps') : NoneLost dirty (steps ++ steps') := by
  induction steps generalizing dirty with
  | nil => exact h dirty
  | cons step steps ih =>
    obtain ⟨hstep, hrest⟩ := List.forall_mem_cons.mp hsteps
    obtain ⟨j, a⟩ := step
    rcases hstep with rfl | ⟨dt, rfl⟩
    · exact @ih dirty hrest
    · exact @ih (insert j dirty) hrest

end Steps

section Runner

variable {rps : ℕ} {rounds : List Round}

/-- What the runner collects in a round, before it logs. -/
def Round.collected (r : Round) : List NetStep :=
  tx r.overruns ++ logTxTimes r.txTimes ++ r.rxTimes.toList.flatMap fun t =>
    [(.rxQueuing, .add (t.sample .rxQueuing)), (.rxDelivery, .add (t.sample .rxDelivery))]

theorem netRunner_cons (rps seq : ℕ) (r : Round) (rounds : List Round) :
    netRunner rps seq (r :: rounds) = r.collected ++
      ((if r.rxTimes.isSome ∧ seq % 2 ^ 32 % rps = 0 then
        finalizeLastBulk r.now ++ resetMeasurements else []) ++
        netRunner rps (seq + 1) rounds) := by
  cases hrx : r.rxTimes with
  | none => simp [netRunner, Round.collected, hrx]
  | some t => simp [netRunner, Round.collected, hrx, logRxTimes]

theorem Round.collects (r : Round) : ∀ step ∈ r.collected, Collects step := by
  intro step hstep
  simp only [Round.collected, tx, logTxTimes, List.mem_append, List.mem_replicate,
    List.mem_flatMap, List.mem_cons, List.not_mem_nil, or_false] at hstep
  rcases hstep with (⟨-, rfl⟩ | ⟨t, -, rfl | rfl⟩) | ⟨t, -, rfl | rfl⟩
  · exact .inl rfl
  all_goals exact .inr ⟨_, rfl⟩

theorem samplesOf_collected (r : Round) (i : StatIndex) :
    samplesOf r.collected i = r.samples i := by
  have htx : samplesOf (tx r.overruns) i = [] := by
    simp [samplesOf, tx]
  have hlog : samplesOf (logTxTimes r.txTimes) i =
      if i = .txQueuing ∨ i = .txDelivery then r.txTimes.map (·.sample i) else [] := by
    induction r.txTimes with
    | nil => cases i <;> rfl
    | cons t ts ih =>
      rw [logTxTimes, List.flatMap_cons, ← logTxTimes, samplesOf_append, ih]
      cases i <;> rfl
  rw [Round.collected, samplesOf_append, samplesOf_append, htx, hlog]
  cases hrx : r.rxTimes <;> cases i <;> simp [samplesOf, Round.samples, hrx]

theorem count_collected (r : Round) (i : StatIndex) :
    r.collected.count (i, .overrun) = netOverruns [r] i := by
  have hlog : (logTxTimes r.txTimes).count (i, .overrun) = 0 := by
    rw [List.count_eq_zero]
    simp [logTxTimes]
  rw [Round.collected, List.count_append, List.count_append, hlog, tx, List.count_replicate]
  cases r.rxTimes <;> cases i <;> simp [netOverruns]

/-- The runner resets the series right after it logs them. -/
theorem netRunner_noneLost (rps seq : ℕ) (rounds : List Round) (dirty : Set StatIndex) :
    NoneLost dirty (netRunner rps seq rounds) := by
  induction rounds generalizing seq dirty with
  | nil => trivial
  | cons r rounds ih =>
    rw [netRunner_cons]
    refine NoneLost.of_collects r.collects fun dirty => ?_
    split_ifs
    · simp [finalizeLastBulk, logOrder, resetMeasurements, NoneLost, ih]
    · exact ih (seq + 1) dirty

theorem samplesOf_netRunner (rps seq : ℕ) (rounds : List Round) (i : StatIndex) :
    samplesOf (netRunner rps seq rounds) i = netSamples rounds i := by
  induction rounds generalizing seq with
  | nil => rfl
  | cons r rounds ih =>
    rw [netRunner_cons, samplesOf_append, samplesOf_append, ih, samplesOf_collected]
    split_ifs
    · rfl
    · rfl

end Runner

/-- A step concerns its own series only. -/
theorem netStep_ends {bits : ℕ} {t : ℤ} {nd : NetDesc} {j : StatIndex} {a : Access}
    {P : StatIndex → Series → Prop} {E : ℕ → Prop}
    (hown : Ends ((nd j).access bits t a) (P j) E) (hothers : ∀ i, i ≠ j → P i (nd i)) :
    Ends (netStep bits t nd (j, a)) (fun nd' => ∀ i, P i (nd' i)) E := by
  refine Ends.bind hown fun s hs i => ?_
  by_cases heq : i = j
  · subst heq
    rw [Function.update_self]
    exact hs
  · rw [Function.update_of_ne heq]
    exact hothers i heq

section Abort

variable {bits hCells : ℕ} {t now : ℤ} {i j : StatIndex} {a : Access} {dt : ℤ} {s : Series}
  {nd : NetDesc} {step : NetStep} {done steps : List NetStep} {dirty dirty₂ : Set StatIndex}

/-- Every sample taken so far was reported and is not over the threshold, or is at most the
maximum of the measurement. -/
structure Watched (t : ℤ) (i : StatIndex) (done : List NetStep) (dirty : Set StatIndex)
    (s : Series) : Prop where
  pending : ∀ x ∈ samplesOf done i, Reported done i x ∨ i ∈ dirty ∧ x ≤ s.meas.maxLat
  known : s.meas.maxLat = -tenMillions ∨ s.meas.maxLat ∈ samplesOf done i
  below : t ≠ 0 → s.st.allMaxlat ≤ t ∧ ∀ x, Reported done i x → x ≤ t

theorem Watched.init (i : StatIndex) (hCells : ℕ) (ht : 0 ≤ t) :
    Watched t i [] ∅ (Series.init hCells) where
  pending x hx := absurd hx List.not_mem_nil
  known := .inl rfl
  below _ := by
    refine ⟨(by decide : -tenMillions ≤ 0).trans ht, ?_⟩
    rintro x ⟨before, now, after, heq, -⟩
    exact absurd heq.symm (by simp)

/-- A step that neither logs nor takes a sample of the series. -/
theorem Watched.frame (w : Watched t i done dirty s) (hdirty : i ∈ dirty → i ∈ dirty₂)
    (hlog : ¬ (j = i ∧ ∃ now, a = .log now)) (hadd : samplesOf [(j, a)] i = []) :
    Watched t i (done ++ [(j, a)]) dirty₂ s := by
  have hreported : ∀ x, Reported (done ++ [(j, a)]) i x ↔ Reported done i x := by
    intro x
    rw [reported_concat, or_iff_left fun h => hlog h.1]
  constructor
  · intro x hx
    rw [samplesOf_append, hadd, List.append_nil] at hx
    rw [hreported]
    exact (w.pending x hx).imp_right fun h => ⟨hdirty h.1, h.2⟩
  · rw [samplesOf_append, hadd, List.append_nil]
    exact w.known
  · simp only [hreported]
    exact w.below

theorem samplesOf_ne (h : j ≠ i) (a : Access) : samplesOf [(j, a)] i = [] := by
  cases a <;> simp [samplesOf, h]

theorem Watched.add (w : Watched t i done dirty s) (h : -2 ^ 31 ≤ dt ∧ dt < 2 ^ 31) :
    Watched t i (done ++ [(i, .add dt)]) (insert i dirty) (s.add bits dt) := by
  have hreported : ∀ x, Reported (done ++ [(i, .add dt)]) i x ↔ Reported done i x := by
    intro x
    rw [reported_concat, or_iff_left fun h => nomatch h.1.2]
  have hsamples : samplesOf (done ++ [(i, .add dt)]) i = samplesOf done i ++ [dt] := by
    rw [samplesOf_append]
    simp [samplesOf]
  have hmax : (s.add bits dt).meas.maxLat = max dt s.meas.maxLat :=
    congrArg Measurement.maxLat (addMeasurement_eq h)
  constructor
  · intro x hx
    rw [hreported, hmax]
    rw [hsamples, List.mem_append, List.mem_singleton] at hx
    rcases hx with hx | rfl
    · exact (w.pending x hx).imp_right fun h => ⟨Set.mem_insert_of_mem i h.1, le_max_of_le_right h.2⟩
    · exact .inr ⟨Set.mem_insert i dirty, le_max_left _ _⟩
  · rw [hmax, hsamples, List.mem_append, List.mem_singleton]
    rcases max_choice dt s.meas.maxLat with heq | heq
    · exact .inr (.inr heq)
    · rw [heq]
      exact w.known.imp_right .inl
  · simp only [hreported]
    exact w.below

/-- Logging reports all samples, or ends the test for one of them. -/
theorem Watched.log (w : Watched t i done dirty s) (ht : 0 ≤ t) (now : ℤ) :
    Ends (s.log t now) (Watched t i (done ++ [(i, .log now)]) (dirty \ {i}))
      (fun e => e = 102 ∧ t ≠ 0 ∧ ∃ x, Reported (done ++ [(i, .log now)]) i x ∧ t < x) := by
  have hreported : ∀ x, x ∈ samplesOf done i → Reported (done ++ [(i, .log now)]) i x :=
    fun x hx => reported_concat.mpr (.inr ⟨⟨rfl, now, rfl⟩, hx⟩)
  have hsamples : samplesOf (done ++ [(i, .log now)]) i = samplesOf done i := by
    rw [samplesOf_append]
    exact List.append_nil _
  rw [Series.log, logResults_threshold]
  by_cases hover : t ≠ 0 ∧ s.st.allMaxlat < s.meas.maxLat ∧ t < s.meas.maxLat
  · rw [if_pos hover]
    refine ⟨rfl, hover.1, s.meas.maxLat, hreported _ (w.known.resolve_left fun heq => ?_),
      hover.2.2⟩
    rw [heq, tenMillions] at hover
    omega
  · rw [if_neg hover]
    obtain ⟨st', hrun, -, hmax, -, -⟩ := logResults_eq now s.st s.meas
    rw [hrun]
    refine ⟨?_, ?_, ?_⟩
    · intro x hx
      rw [hsamples] at hx
      exact .inl (hreported x hx)
    · rw [hsamples]
      exact w.known
    · intro htne
      obtain ⟨hle, hbelow⟩ := w.below htne
      have hnew : s.meas.maxLat ≤ t := by
        by_contra hlt
        exact hover ⟨htne, hle.trans_lt (not_le.mp hlt), not_le.mp hlt⟩
      refine ⟨hmax.trans_le (max_le hnew hle), fun x hx => ?_⟩
      rcases reported_concat.mp hx with hx | ⟨-, hx⟩
      · exact hbelow x hx
      · exact (w.pending x hx).elim (hbelow x) fun h => h.2.trans hnew

theorem Watched.reset (w : Watched t i done dirty s) (hclean : i ∉ dirty) :
    Watched t i (done ++ [(i, .reset)]) dirty s.reset := by
  have h : Watched t i (done ++ [(i, .reset)]) dirty s := w.frame id (fun h => nomatch h.2) rfl
  refine ⟨fun x hx => (h.pending x hx).imp_right fun hd => absurd hd.1 hclean, .inl rfl, h.below⟩

/-- A step of its own series lets the others as they were. -/
theorem netStep_frame (hw : ∀ i, Watched t i done dirty (nd i))
    (hdirty : ∀ i, i ≠ j → i ∈ dirty → i ∈ dirty₂)
    (haccess : Ends ((nd j).access bits t a) (Watched t j (done ++ [(j, a)]) dirty₂)
      (fun e => e = 102 ∧ t ≠ 0 ∧ ∃ x, Reported (done ++ [(j, a)]) j x ∧ t < x)) :
    Ends (netStep bits t nd (j, a)) (fun nd' => ∀ i, Watched t i (done ++ [(j, a)]) dirty₂ (nd' i))
      (fun e => e = 102 ∧ t ≠ 0 ∧ ∃ i x, Reported (done ++ [(j, a)]) i x ∧ t < x) := by
  refine netStep_ends (haccess.mono (fun _ hs => hs) ?_) fun i hne => ?_
  · rintro e ⟨he, htne, x, hx⟩
    exact ⟨he, htne, j, x, hx⟩
  · exact (hw i).frame (hdirty i hne) (fun h => hne h.1.symm) (samplesOf_ne hne.symm a)

theorem netStep_watched (hw : ∀ i, Watched t i done dirty (nd i)) (ht : 0 ≤ t)
    (hsafe : NoneLost dirty (step :: steps))
    (hfits : ∀ x ∈ samplesOf [step] step.1, -2 ^ 31 ≤ x ∧ x < 2 ^ 31) :
    ∃ dirty₂, NoneLost dirty₂ steps ∧
      Ends (netStep bits t nd step) (fun nd' => ∀ i, Watched t i (done ++ [step]) dirty₂ (nd' i))
        (fun e => e = 102 ∧ t ≠ 0 ∧ ∃ i x, Reported (done ++ [step]) i x ∧ t < x) := by
  obtain ⟨j, a⟩ := step
  cases a with
  | overrun =>
    refine ⟨dirty, hsafe, netStep_frame hw (fun _ _ => id) ?_⟩
    have h : Watched t j (done ++ [(j, .overrun)]) dirty (nd j) :=
      (hw j).frame id (fun h => nomatch h.2) rfl
    exact ⟨h.pending, h.known, h.below⟩
  | add dt =>
    refine ⟨insert j dirty, hsafe, netStep_frame hw (fun i _ => Set.mem_insert_of_mem j) ?_⟩
    exact (hw j).add (hfits dt (by simp [samplesOf]))
  | log now =>
    exact ⟨dirty \ {j}, hsafe, netStep_frame hw (fun i hne hi => ⟨hi, hne⟩) ((hw j).log ht now)⟩
  | reset => exact ⟨dirty, hsafe.2, netStep_frame hw (fun _ _ => id) ((hw j).reset hsafe.1)⟩

/-- The test on its way, with the steps to come. -/
def OnTheWay (t : ℤ) (steps rest : List NetStep) (nd : NetDesc) : Prop :=
  ∃ done dirty, done ++ rest = steps ∧ NoneLost dirty rest ∧ ∀ i, Watched t i done dirty (nd i)

theorem OnTheWay.next {rest : List NetStep} (h : OnTheWay t steps (step :: rest) nd) (ht : 0 ≤ t)
    (hfits : Fits (samplesOf steps)) :
    Ends (netStep bits t nd step) (OnTheWay t steps rest)
      (fun e => e = 102 ∧ t ≠ 0 ∧ ∃ i x, Reported steps i x ∧ t < x) := by
  obtain ⟨done, dirty, hall, hsafe, hw⟩ := h
  rw [List.append_cons] at hall
  have hx : ∀ x ∈ samplesOf [step] step.1, -2 ^ 31 ≤ x ∧ x < 2 ^ 31 := by
    intro x hx
    refine hfits step.1 x ?_
    rw [← hall, samplesOf_append, samplesOf_append]
    exact List.mem_append_left _ (List.mem_append_right _ hx)
  obtain ⟨dirty₂, hsafe', hends⟩ := netStep_watched hw ht hsafe hx
  refine hends.mono (fun nd' hw' => ⟨done ++ [step], dirty₂, hall, hsafe', hw'⟩) ?_
  rintro e ⟨he, htne, i, x, hr, hlt⟩
  exact ⟨he, htne, i, x, hall ▸ hr.append rest, hlt⟩

/-- A whole test, from the start on. -/
theorem runNetTest_watched (bits hCells : ℕ) (ht : 0 ≤ t) (hsafe : NoneLost ∅ steps)
    (hfits : Fits (samplesOf steps)) :
    Ends (runNetTest bits t hCells steps) (fun nd => ∃ dirty, ∀ i, Watched t i steps dirty (nd i))
      (fun e => e = 102 ∧ t ≠ 0 ∧ ∃ i x, Reported steps i x ∧ t < x) := by
  have hinit : OnTheWay t steps steps fun _ => Series.init hCells :=
    ⟨[], ∅, rfl, hsafe, fun i => Watched.init i hCells ht⟩
  refine (Ends.foldlM (fun _ _ _ h => h.next ht hfits) hinit).mono ?_ fun _ he => he
  rintro nd ⟨done, dirty, hall, -, hw⟩
  rw [List.append_nil] at hall
  exact ⟨dirty, hall ▸ hw⟩

end Abort

theorem finalizeLastBulk_logs {now : StatIndex → ℤ} :
    ∀ step ∈ finalizeLastBulk now, ∃ i x, step = (i, Access.log x) := by
  intro step hstep
  obtain ⟨i, -, rfl⟩ := List.mem_map.mp hstep
  exact ⟨i, now i, rfl⟩

/-- In every order of the steps no series is reset too early, and the samples are the runner's. -/
theorem NetOrder.spec {period : ℕ} {rounds : List Round} {now : StatIndex → ℤ}
    {steps : List NetStep} (h : NetOrder period rounds now steps) :
    NoneLost ∅ steps ∧ ∀ i, samplesOf steps i <+: netSamples rounds i := by
  obtain ⟨order, hi, rest, rfl⟩ := h
  refine ⟨((netRunner_noneLost _ 0 rounds ∅).interleaved hi finalizeLastBulk_logs).of_append, ?_⟩
  intro i
  refine ⟨samplesOf rest i, ?_⟩
  rw [← samplesOf_append, samplesOf_interleaved hi finalizeLastBulk_logs, samplesOf_netRunner]

theorem Interleaved.append {α : Type*} (xs ys : List α) : Interleaved xs ys (xs ++ ys) := by
  induction xs with
  | nil =>
    induction ys with
    | nil => exact .nil
    | cons y ys ih => exact ih.right y
  | cons x xs ih => exact ih.left x

theorem runnerWaits_order (period : ℕ) (rounds : List Round) (now : StatIndex → ℤ) :
    NetOrder period rounds now (runnerWaits period rounds now) :=
  ⟨_, Interleaved.append _ _, List.prefix_rfl⟩

/-- If the runner waits, all samples are reported. -/
theorem reported_runnerWaits {period : ℕ} {rounds : List Round} {now : StatIndex → ℤ}
    {i : StatIndex} {x : ℤ} :
    Reported (runnerWaits period rounds now) i x ↔ x ∈ netSamples rounds i := by
  constructor
  · rintro ⟨before, now', after, heq, hx⟩
    refine ((runnerWaits_order period rounds now).spec.2 i).subset ?_
    rw [heq, samplesOf_append]
    exact List.mem_append_left _ hx
  · intro hx
    have hi : i ∈ logOrder := by cases i <;> decide
    obtain ⟨before, after, horder⟩ := List.append_of_mem hi
    refine ⟨netRunner (roundsPerSec period) 0 rounds ++ before.map fun i => (i, .log (now i)),
      now i, after.map fun i => (i, .log (now i)), ?_, ?_⟩
    · rw [runnerWaits, finalizeLastBulk, horder]
      simp
    · rw [samplesOf_append, samplesOf_netRunner]
      exact List.mem_append_left _ hx

/-- Some sample is over the threshold. -/
def Over (t : ℤ) (xs : StatIndex → List ℤ) : Prop := t ≠ 0 ∧ ∃ i, ∃ x ∈ xs i, t < x

/-- In whichever order the threads take their steps, a net test with a threshold is aborted
exactly if a series is logged after a sample over the threshold was taken. If the runner waits
while the main thread logs the last bulk, any such sample will do. -/
theorem runNetTest_aborts_iff (bits hCells period : ℕ) (t : ℤ) (rounds : List Round)
    (now : StatIndex → ℤ) (ht : 0 ≤ t) (hfits : Fits (netSamples rounds)) :
    (∀ steps, NetOrder period rounds now steps →
      (runNetTest bits t hCells steps = .error 102 ↔
        t ≠ 0 ∧ ∃ i x, Reported steps i x ∧ t < x)) ∧
    (runNetTest bits t hCells (runnerWaits period rounds now) = .error 102 ↔
      Over t (netSamples rounds)) := by
  have hany : ∀ steps, NetOrder period rounds now steps →
      (runNetTest bits t hCells steps = .error 102 ↔
        t ≠ 0 ∧ ∃ i x, Reported steps i x ∧ t < x) := by
    intro steps horder
    obtain ⟨hsafe, hsamples⟩ := horder.spec
    have hsteps : Fits (samplesOf steps) := fun i x hx => hfits i x ((hsamples i).subset hx)
    refine Ends.error_iff ((runNetTest_watched bits hCells ht hsafe hsteps).mono ?_ fun _ he => he)
    rintro nd ⟨dirty, hw⟩ ⟨htne, i, x, hreported, hlt⟩
    exact absurd hlt (not_lt.mpr (((hw i).below htne).2 x hreported))
  refine ⟨hany, (hany _ (runnerWaits_order period rounds now)).trans (and_congr_right fun _ => ?_)⟩
  simp only [reported_runnerWaits, ← exists_prop]

/-- Two rounds, the second without timestamps of a received packet. -/
def twoRounds : List Round :=
  [⟨1, [⟨2000, 1500, 1000⟩], some ⟨5000, 5800, 6200⟩, fun _ => 0⟩,
    ⟨0, [⟨7500, 6800, 6000⟩], none, fun _ => 1⟩]

theorem twoRounds_fits : Fits (netSamples twoRounds) := by
  intro i
  cases i <;> decide

/-- The main thread has logged the first series when the runner goes on to the second round. -/
def goingOn : List NetStep :=
  netRunner (roundsPerSec 1000) 0 (twoRounds.take 1) ++ [(.txQueuing, .log 2)] ++
    [(.txQueuing, .add 800), (.txDelivery, .add 1500)] ++
    [(.txDelivery, .log 2), (.rxQueuing, .log 2), (.rxDelivery, .log 2)]

theorem goingOn_order : NetOrder 1000 twoRounds (fun _ => 2) goingOn := by
  refine ⟨goingOn, ?_, List.prefix_rfl⟩
  -- step by step, from the runner wherever it takes the step
  repeat' constructor

theorem runNetTest_aborts_iff_goingOn : runNetTest 32 1400 20 goingOn = .error 102 := by
  refine ((runNetTest_aborts_iff 32 20 1000 1400 twoRounds (fun _ => 2) (by decide)
    twoRounds_fits).1 goingOn goingOn_order).mpr ⟨by decide, .txDelivery, 1500, ?_, by decide⟩
  refine ⟨netRunner (roundsPerSec 1000) 0 (twoRounds.take 1) ++ [(.txQueuing, .log 2)] ++
    [(.txQueuing, .add 800), (.txDelivery, .add 1500)], 2,
    [(.rxQueuing, .log 2), (.rxDelivery, .log 2)], ?_, by decide⟩
  rw [goingOn, List.append_assoc]

section Waits

variable {bits hCells rps : ℕ} {t : ℤ} {nd : NetDesc} {xs : StatIndex → List ℤ}
  {n : StatIndex → ℕ} {steps : List NetStep}

/-- A series that took some samples and counted some overruns. -/
def Tracks (bits hCells : ℕ) (t : ℤ) (s : Series) (xs : List ℤ) (n : ℕ) : Prop :=
  ∃ bulks cur, allOf bulks ++ cur = xs ∧ Follows bits hCells t s bulks cur n

/-- The same, when everything was logged. -/
def Reports (bits hCells : ℕ) (t : ℤ) (s : Series) (xs : List ℤ) (n : ℕ) : Prop :=
  ∃ bulks, allOf bulks = xs ∧ Settled bits hCells t s bulks n

theorem Tracks.init (bits hCells : ℕ) (t : ℤ) :
    Tracks bits hCells t (Series.init hCells) [] 0 :=
  ⟨[], [], rfl, Follows.init bits hCells t⟩

/-- A series in a step that collects for it. -/
theorem Tracks.access {s : Series} {ys : List ℤ} {k : ℕ} {j : StatIndex} {a : Access}
    (h : Tracks bits hCells t s ys k) (ha : Collects (j, a)) (hfits : Fits (samplesOf [(j, a)])) :
    Ends (s.access bits t a) (fun s' => Tracks bits hCells t s' (ys ++ samplesOf [(j, a)] j)
      (k + [(j, a)].count (j, .overrun))) (fun _ => True) := by
  obtain ⟨bulks, cur, hall, hf⟩ := h
  rcases ha with rfl | ⟨dt, rfl⟩
  · refine ⟨bulks, cur, hall.trans (List.append_nil _).symm, ?_⟩
    rw [List.count_singleton_self]
    exact hf.overrun
  · have hsample : samplesOf [(j, .add dt)] j = [dt] := by simp [samplesOf]
    have hcount : [(j, Access.add dt)].count (j, .overrun) = 0 := by simp
    refine ⟨bulks, cur ++ [dt], by rw [hsample, ← List.append_assoc, hall], ?_⟩
    rw [hcount]
    exact hf.add (hfits j dt (hsample ▸ List.mem_singleton_self dt))

theorem netStep_tracks {step : NetStep} (h : ∀ i, Tracks bits hCells t (nd i) (xs i) (n i))
    (hstep : Collects step) (hfits : Fits (samplesOf [step])) :
    Ends (netStep bits t nd step)
      (fun nd' => ∀ i, Tracks bits hCells t (nd' i) (xs i ++ samplesOf [step] i)
        (n i + [step].count (i, .overrun))) (fun _ => True) := by
  obtain ⟨j, a⟩ := step
  refine netStep_ends (P := fun i s => Tracks bits hCells t s (xs i ++ samplesOf [(j, a)] i)
    (n i + [(j, a)].count (i, .overrun))) ((h j).access hstep hfits) fun i hne => ?_
  have hcount : [(j, a)].count (i, .overrun) = 0 := by simp [hne.symm]
  rw [samplesOf_ne hne.symm, List.append_nil, hcount]
  exact h i

theorem collects_tracks (h : ∀ i, Tracks bits hCells t (nd i) (xs i) (n i))
    (hsteps : ∀ step ∈ steps, Collects step) (hfits : Fits (samplesOf steps)) :
    Ends (steps.foldlM (netStep bits t) nd)
      (fun nd' => ∀ i, Tracks bits hCells t (nd' i) (xs i ++ samplesOf steps i)
        (n i + steps.count (i, .overrun))) (fun _ => True) := by
  induction steps generalizing nd xs n with
  | nil =>
    intro i
    rw [samplesOf, List.filterMap_nil, List.append_nil]
    exact h i
  | cons step steps ih =>
    obtain ⟨hstep, hrest⟩ := List.forall_mem_cons.mp hsteps
    have hsamples : ∀ i, samplesOf (step :: steps) i = samplesOf [step] i ++ samplesOf steps i :=
      fun i => samplesOf_append [step] steps i
    have hcount : ∀ i, (step :: steps).count (i, Access.overrun) =
        [step].count (i, .overrun) + steps.count (i, .overrun) :=
      fun i => show ([step] ++ steps).count (i, .overrun) = _ from List.count_append
    simp only [Fits, hsamples, List.mem_append] at hfits
    simp only [hsamples, hcount, ← List.append_assoc, ← Nat.add_assoc]
    rw [List.foldlM_cons]
    refine Ends.bind (netStep_tracks h hstep fun i x hx => hfits i x (.inl hx)) ?_
    exact fun nd' hnd' => ih hnd' hrest fun i x hx => hfits i x (.inr hx)

theorem Tracks.log {s : Series} {xs : List ℤ} {n : ℕ} (h : Tracks bits hCells t s xs n)
    (ht : 0 ≤ t) (now : ℤ) :
    Ends (s.log t now) (fun s' => Reports bits hCells t s' xs n) (fun _ => True) := by
  obtain ⟨bulks, cur, hall, hf⟩ := h
  refine (hf.log ht now).mono (fun s' hs => ⟨_, ?_, hs⟩) fun _ _ => trivial
  rw [← hall]
  simp [allOf]

/-- A series that is logged unless it is one of those to come. -/
def LoggedBut (bits hCells : ℕ) (t : ℤ) (xs : StatIndex → List ℤ) (n : StatIndex → ℕ)
    (is : List StatIndex) (i : StatIndex) (s : Series) : Prop :=
  (i ∈ is → Tracks bits hCells t s (xs i) (n i)) ∧ (i ∉ is → Reports bits hCells t s (xs i) (n i))

/-- Some of the series are still to be logged. -/
def ToLog (bits hCells : ℕ) (t : ℤ) (xs : StatIndex → List ℤ) (n : StatIndex → ℕ)
    (is : List StatIndex) (nd : NetDesc) : Prop :=
  is.Nodup ∧ ∀ i, LoggedBut bits hCells t xs n is i (nd i)

theorem ToLog.next {i : StatIndex} {is : List StatIndex} (h : ToLog bits hCells t xs n (i :: is) nd)
    (ht : 0 ≤ t) (now : ℤ) :
    Ends (netStep bits t nd (i, .log now)) (ToLog bits hCells t xs n is) (fun _ => True) := by
  obtain ⟨hnodup, hall⟩ := h
  obtain ⟨hi, hnodup⟩ := List.nodup_cons.mp hnodup
  have hown : Ends ((nd i).access bits t (.log now)) (LoggedBut bits hCells t xs n is i)
      (fun _ => True) :=
    (((hall i).1 List.mem_cons_self).log ht now).mono
      (fun s hs => ⟨fun hmem => absurd hmem hi, fun _ => hs⟩) fun _ he => he
  have hothers : ∀ j, j ≠ i → LoggedBut bits hCells t xs n is j (nd j) := fun j hne =>
    ⟨fun hmem => (hall j).1 (List.mem_cons_of_mem i hmem),
      fun hmem => (hall j).2 (by simp [hne, hmem])⟩
  exact (netStep_ends hown hothers).mono (fun _ h' => ⟨hnodup, h'⟩) fun _ he => he

/-- All four series are logged. -/
theorem finalizeLastBulk_ends (h : ∀ i, Tracks bits hCells t (nd i) (xs i) (n i)) (ht : 0 ≤ t)
    (now : StatIndex → ℤ) :
    Ends ((finalizeLastBulk now).foldlM (netStep bits t) nd)
      (fun nd' => ∀ i, Reports bits hCells t (nd' i) (xs i) (n i)) (fun _ => True) := by
  have hinit : ToLog bits hCells t xs n logOrder nd :=
    ⟨by decide, fun i => ⟨fun _ => h i, fun hi => absurd (by cases i <;> decide) hi⟩⟩
  rw [finalizeLastBulk, List.foldlM_map]
  refine (Ends.foldlM (fun i _ _ h => h.next ht (now i)) hinit).mono ?_ fun _ he => he
  exact fun nd' h' i => (h'.2 i).2 List.not_mem_nil

theorem resetMeasurements_eq (bits : ℕ) (t : ℤ) (nd : NetDesc) :
    resetMeasurements.foldlM (netStep bits t) nd = .ok fun i => (nd i).reset := by
  refine congrArg Except.ok (funext fun i => ?_)
  cases i <;> rfl

theorem Reports.reset {s : Series} {xs : List ℤ} {n : ℕ} (h : Reports bits hCells t s xs n) :
    Tracks bits hCells t s.reset xs n := by
  obtain ⟨bulks, hall, hs⟩ := h
  exact ⟨bulks, [], by rw [List.append_nil, hall], hs.reset⟩

theorem netOverruns_cons (r : Round) (rounds : List Round) (i : StatIndex) :
    netOverruns (r :: rounds) i = netOverruns [r] i + netOverruns rounds i := by
  cases i <;> simp [netOverruns]

/-- The samples of all rounds, whichever of them log. -/
theorem netRunner_tracks {seq : ℕ} {rounds : List Round}
    (h : ∀ i, Tracks bits hCells t (nd i) (xs i) (n i)) (ht : 0 ≤ t)
    (hfits : Fits (netSamples rounds)) :
    Ends ((netRunner rps seq rounds).foldlM (netStep bits t) nd)
      (fun nd' => ∀ i, Tracks bits hCells t (nd' i) (xs i ++ netSamples rounds i)
        (n i + netOverruns rounds i)) (fun _ => True) := by
  induction rounds generalizing nd seq xs n with
  | nil =>
    intro i
    have hnone : netOverruns [] i = 0 := by cases i <;> rfl
    rw [netSamples, List.flatMap_nil, List.append_nil, hnone]
    exact h i
  | cons r rounds ih =>
    have hcollected : Ends (r.collected.foldlM (netStep bits t) nd) (fun nd' => ∀ i,
        Tracks bits hCells t (nd' i) (xs i ++ r.samples i) (n i + netOverruns [r] i))
        (fun _ => True) := by
      have hround : Fits (samplesOf r.collected) := fun i x hx =>
        hfits i x (List.mem_append_left _ (by rwa [samplesOf_collected] at hx))
      have hends := collects_tracks h r.collects hround
      simpa only [samplesOf_collected, count_collected] using hends
    rw [netRunner_cons, List.foldlM_append]
    refine Ends.bind hcollected fun nd' hnd' => ?_
    rw [List.foldlM_append]
    refine Ends.bind (P := fun nd₂ => ∀ i,
      Tracks bits hCells t (nd₂ i) (xs i ++ r.samples i) (n i + netOverruns [r] i)) ?_
      fun nd₂ hnd₂ => ?_
    · split_ifs
      · rw [List.foldlM_append]
        refine Ends.bind (finalizeLastBulk_ends hnd' ht r.now) fun nd₂ hnd₂ => ?_
        rw [resetMeasurements_eq]
        exact fun i => (hnd₂ i).reset
      · exact hnd'
    · refine (ih hnd₂ fun i x hx => hfits i x (List.mem_append_right _ hx)).mono ?_ fun _ he => he
      intro nd₃ hall i
      have hi := hall i
      rwa [List.append_assoc, Nat.add_assoc, ← netOverruns_cons] at hi

/-- A test at whose end the runner waits. -/
theorem runnerWaits_reports (bits hCells period : ℕ) (rounds : List Round) (now : StatIndex → ℤ)
    (ht : 0 ≤ t) (hfits : Fits (netSamples rounds)) :
    Ends (runNetTest bits t hCells (runnerWaits period rounds now))
      (fun nd => ∀ i, Reports bits hCells t (nd i) (netSamples rounds i) (netOverruns rounds i))
      (fun _ => True) := by
  have hrunner := @netRunner_tracks bits hCells (roundsPerSec period) t (fun _ => Series.init hCells)
    (fun _ => []) (fun _ => 0) 0 rounds (fun _ => Tracks.init bits hCells t) ht hfits
  rw [runNetTest, runnerWaits, List.foldlM_append]
  refine Ends.bind hrunner fun nd hnd => finalizeLastBulk_ends (fun i => ?_) ht now
  have hi := hnd i
  rwa [List.nil_append, Nat.zero_add] at hi

end Waits

/-- A sum of few samples that fit does not wrap. -/
theorem sum_fits {xs : List ℤ} (hfew : xs.length < 2 ^ 31)
    (hfits : ∀ x ∈ xs, -2 ^ 31 ≤ x ∧ x < 2 ^ 31) : -2 ^ 63 ≤ xs.sum ∧ xs.sum < 2 ^ 63 := by
  have hlo := List.card_nsmul_le_sum xs (-2 ^ 31) fun x hx => (hfits x hx).1
  have hhi := List.sum_le_card_nsmul xs (2 ^ 31) fun x hx => (hfits x hx).2.le
  rw [nsmul_eq_mul] at hlo hhi
  omega

/-- Sum and count are those of the samples. The minimum is theirs if some sample is as low as it
starts, and only then, and likewise the maximum. -/
structure Figures (st : Statistics) (xs : List ℤ) : Prop where
  sum : st.allSum = xs.sum
  samples : st.allSamples = xs.length
  min : IsLeast {x | x ∈ xs} st.allMinlat ↔ ∃ x ∈ xs, x ≤ tenMillions
  max : IsGreatest {x | x ∈ xs} st.allMaxlat ↔ ∃ x ∈ xs, -tenMillions ≤ x

theorem Logged.figures {bits : ℕ} {st : Statistics} {bulks : List Bulk} (l : Logged bits st bulks)
    (hbits : 32 ≤ bits) (hfew : (allOf bulks).length < 2 ^ 31)
    (hfits : ∀ x ∈ allOf bulks, -2 ^ 31 ≤ x ∧ x < 2 ^ 31) : Figures st (allOf bulks) where
  sum := l.sum.trans (s64_eq_self.mpr (sum_fits hfew hfits))
  samples := by
    have hcounts := (sum_counts_eq bits bulks).2.mpr fun b hb => by
      have hle : b.samples.length ≤ (allOf bulks).length :=
        (List.sublist_flatten_of_mem (List.mem_map_of_mem hb)).length_le
      have hpow : 2 ^ 32 ≤ 2 ^ bits := Nat.pow_le_pow_right (by decide) hbits
      omega
    rw [l.samples, hcounts]
    exact s64_eq_self.mpr (by omega)
  min := isLeast_of_insert l.min
  max := isGreatest_of_insert l.max

/-- `statistics[]`, as `dump_gnuplot` gets it. -/
def statArray (nd : NetDesc) : List (Statistics × List ℤ) :=
  [.rxQueuing, .rxDelivery, .txQueuing, .txDelivery].map fun i =>
    ((nd i).st, (nd i).histogram.getD [])

/-- The figures and the plot of a net test which is not aborted are those of all samples, if the
runner waits while the main thread logs the last bulk. -/
theorem runNetTest_reports {bits hCells period : ℕ} {t : ℤ} {now : StatIndex → ℤ}
    {rounds : List Round} {nd : NetDesc} (hbits : 32 ≤ bits) (hcells : 0 < hCells ∧ hCells ≤ 1000)
    (ht : 0 ≤ t) (hfits : Fits (netSamples rounds))
    (hfew : ∀ i, (netSamples rounds i).length < 2 ^ 31)
    (hrun : runNetTest bits t hCells (runnerWaits period rounds now) = .ok nd) :
    (∀ i, (nd i).st.allOverruns = netOverruns rounds i % 2 ^ 32 ∧
      Figures (nd i).st (netSamples rounds i)) ∧
    Plots hCells (dumpRows (statArray nd) hCells)
      ([.rxQueuing, .rxDelivery, .txQueuing, .txDelivery].map (netSamples rounds)) := by
  have hs := runnerWaits_reports bits hCells period rounds now ht hfits
  rw [hrun] at hs
  have hcolumn : ∀ i, Column hCells ((nd i).st, (nd i).histogram.getD []) (netSamples rounds i) := by
    intro i
    obtain ⟨bulks, hall, hsettled⟩ := hs i
    have hh := hsettled.histogram
    rw [hall] at hh
    cases hhist : (nd i).histogram with
    | none =>
      rw [hhist] at hh
      exact absurd hh hcells.1.ne'
    | some hist =>
      rw [hhist] at hh
      refine ⟨hh.2.1, hh.2.2, ?_, hfew i, hfits i⟩
      rw [← hall]
      exact hsettled.logged.max
  constructor
  · intro i
    obtain ⟨bulks, hall, hsettled⟩ := hs i
    refine ⟨hsettled.overruns hbits, ?_⟩
    rw [← hall]
    exact hsettled.logged.figures hbits (by rw [hall]; exact hfew i) (by rw [hall]; exact hfits i)
  · refine dumpRows_plots ?_ hcells.1 (by omega)
    rw [statArray, List.forall₂_map_left_iff, List.forall₂_map_right_iff, List.forall₂_same]
    exact fun i _ => hcolumn i

theorem runNetTest_reports_twoRounds :
    ∃ nd, runNetTest 32 0 20 (runnerWaits 1000 twoRounds fun _ => 2) = .ok nd ∧
      (nd .txDelivery).st.allOverruns = 1 ∧ (nd .txDelivery).st.allSum = 2500 ∧
      (nd .txDelivery).st.allSamples = 2 ∧
      IsLeast {x | x ∈ [(1000 : ℤ), 1500]} (nd .txDelivery).st.allMinlat ∧
      IsGreatest {x | x ∈ [(1000 : ℤ), 1500]} (nd .txDelivery).st.allMaxlat ∧
      Plots 20 (dumpRows (statArray nd) 20) [[800], [1200], [500, 800], [1000, 1500]] := by
  cases hrun : runNetTest 32 0 20 (runnerWaits 1000 twoRounds fun _ => 2) with
  | error e =>
    have hends := runNetTest_watched 32 20 (le_refl 0)
      (runnerWaits_order 1000 twoRounds fun _ => 2).spec.1 fun i => by cases i <;> decide
    rw [hrun] at hends
    exact absurd rfl hends.2.1
  | ok nd =>
    obtain ⟨hfigures, hplots⟩ := runNetTest_reports (by decide) (by decide) le_rfl twoRounds_fits
      (fun i => by cases i <;> decide) hrun
    obtain ⟨hover, hsum, hsamples, hmin, hmax⟩ := hfigures .txDelivery
    exact ⟨nd, rfl, hover, hsum, hsamples, hmin.mpr (by decide), hmax.mpr (by decide), hplots⟩

/-- If the runner goes on, it logs a bulk that the main thread has logged. -/
example :
    (runNetTest 32 0 0 (netRunner 1 0 [⟨0, [⟨2000, 1500, 1000⟩], none, fun _ => 1⟩] ++
        [(.txQueuing, .log 2)] ++ netRunner 1 1 [⟨0, [], some ⟨5000, 5800, 6200⟩, fun _ => 2⟩])).map
      (fun nd => ((nd .txQueuing).st.allSum, (nd .txQueuing).st.allSamples)) =
    .ok (1000, 2) := by
  decide

end Libevl.LatmusStats
