import Libevl.LatmusNet
import Mathlib.Data.Nat.Basic
import Mathlib.Tactic.Ring

/-!
# What the latency monitor sends

A GPIO test connects to a monitor, which sends a record for each bulk of samples,
then an empty record, and the histogram. All of it comes in pieces of any size.
The logger turns it into the statistics of the samples. Only a monitor that stops
before the end is taken for unresponsive, and no record of real samples is taken
for a weird one.
-/
namespace Libevl.LatmusStats

open Libevl.EarlyExit

abbrev Bytes := List (BitVec 8)

/-- What the socket gives next: some bytes, or nothing until the poll times out, or the end of
the connection. -/
inductive Arrival
  | bytes (bs : Bytes)
  | stall
  | close
  deriving DecidableEq, Repr

section Pieces

variable {len fuel round hCells : ℕ} {t : ℤ} {now : ℕ → ℤ} {arr arr' : List Arrival}
  {st : Statistics}

/-- The bytes that come in before the first time out, or the end. -/
def content : List Arrival → Bytes
  | .bytes bs :: rest => bs ++ content rest
  | _ => []

end Pieces

section Records

variable {bs rest : Bytes} {ws : List ℕ} {k : ℕ} {x : ℤ} {meas : Measurement}

/-- What a measurement can hold. -/
structure Wire (meas : Measurement) : Prop where
  sum : -2 ^ 63 ≤ meas.sumLat ∧ meas.sumLat < 2 ^ 63
  min : -2 ^ 31 ≤ meas.minLat ∧ meas.minLat < 2 ^ 31
  max : -2 ^ 31 ≤ meas.maxLat ∧ meas.maxLat < 2 ^ 31
  overruns : meas.overruns < 2 ^ 32
  samples : meas.samples < 2 ^ 32

end Records

section RealRecords

variable {meas : Measurement} {xs : List ℤ} {t now : ℤ} {st : Statistics}

/-- A record with the measurement of some samples. -/
structure RealRecord (meas : Measurement) (xs : List ℤ) : Prop where
  collected : Collected 32 meas xs
  nonempty : xs ≠ []
  few : xs.length < 2 ^ 31
  fits : ∀ x ∈ xs, -2 ^ 31 ≤ x ∧ x < 2 ^ 31
  overruns : meas.overruns < 2 ^ 32

namespace RealRecord

theorem samples_eq (r : RealRecord meas xs) : meas.samples = xs.length := by
  have hfew := r.few
  rw [r.collected.samples]
  exact Nat.mod_eq_of_lt (by omega)

theorem sum_eq (r : RealRecord meas xs) : meas.sumLat = xs.sum := by
  rw [r.collected.sum]
  exact s64_eq_self.mpr (sum_fits r.few r.fits)

theorem wire (r : RealRecord meas xs) : Wire meas where
  sum := by
    rw [r.sum_eq]
    exact sum_fits r.few r.fits
  min := by
    rcases r.collected.min.1 with h | h
    · rw [h]
      decide
    · exact r.fits _ h
  max := by
    rcases r.collected.max.1 with h | h
    · rw [h]
      decide
    · exact r.fits _ h
  overruns := r.overruns
  samples := by
    have hfew := r.few
    rw [r.samples_eq]
    omega

end RealRecord

end RealRecords

section Runs

variable {t : ℤ} {now : ℕ → ℤ} {hCells fuel round n : ℕ} {st : Statistics} {bulks : List Bulk}
  {meas : Measurement} {xs : List ℤ} {e rest : Bytes} {cells : List ℤ}

variable {rs : List (Measurement × List ℤ)}

end Runs

end Libevl.LatmusStats
