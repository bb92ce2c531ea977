import Libevl.RingPtrWrap
import Mathlib.Data.Nat.ModEq
import Mathlib.Data.Set.Finite.Basic
import Mathlib.Order.Interval.Finset.Nat

/-!
# The index map of the pointer ring

`__evl_ringptr_map` moves the low bits of a ticket around, so that neighbouring
tickets meet different cache lines. Here tickets, masks and shifts are machine
words, and the number of cells is an argument as in the source.
-/
namespace Libevl.RingPtr

/-- `__evl_ringptr_map`, on words. -/
def wordMap (w : WordSize) (idx order n : ℕ) : ℕ :=
  ((idx &&& (n - 1)) >>> (order + 1 - w.minOrder)) |||
    (word w (idx <<< w.minOrder) &&& (n - 1))

/-- `x & ~(lfatomic_t)(n - 1)`. -/
def wordCycle (w : WordSize) (x n : ℕ) : ℕ := x &&& (2 ^ w.bits - 1 - (n - 1))

section Words

variable {w : WordSize} {order : ℕ} (hn : cells order < 2 ^ w.bits)
include hn

theorem order_lt_bits : order + 1 < w.bits := by
  rw [cells_eq_two_pow] at hn
  exact (Nat.pow_lt_pow_iff_right (by omega)).mp hn

theorem cells_dvd_words : cells order ∣ 2 ^ w.bits := by
  rw [cells_eq_two_pow]
  exact pow_dvd_pow 2 (order_lt_bits hn).le

theorem word_mod_cells (x : ℕ) : word w x % cells order = x % cells order :=
  Nat.mod_mod_of_dvd _ (cells_dvd_words hn)

/-- The bits that the left shift loses are masked anyway. -/
theorem wordMap_eq (x : ℕ) : wordMap w x order (cells order) = ringMap w order x := by
  rw [wordMap, ringMap, and_cells, and_cells, and_cells, word_mod_cells hn]

theorem wordCycle_eq {x : ℕ} (hx : x < 2 ^ w.bits) :
    wordCycle w x (cells order) = cycle order x := by
  have hlt := order_lt_bits hn
  have hpos := Nat.two_pow_pos (order + 1)
  have hmask : 2 ^ w.bits - 1 - (cells order - 1) =
      2 ^ (order + 1) * (2 ^ (w.bits - (order + 1)) - 1) := by
    rw [Nat.mul_sub, ← pow_add, Nat.add_sub_cancel' hlt.le, cells_eq_two_pow]
    omega
  rw [wordCycle, hmask, cycle_eq, cells_eq_two_pow]
  apply Nat.eq_of_testBit_eq
  intro i
  rw [Nat.testBit_and, Nat.testBit_two_pow_mul, Nat.testBit_two_pow_mul,
    Nat.testBit_two_pow_sub_one, Nat.testBit_div_two_pow]
  by_cases hi : order + 1 ≤ i
  · rw [Nat.sub_add_cancel hi]
    by_cases hb : i < w.bits
    · have : i - (order + 1) < w.bits - (order + 1) := by omega
      simp [hi, this]
    · have hpow : 2 ^ w.bits ≤ 2 ^ i := Nat.pow_le_pow_right (by omega) (by omega)
      simp [Nat.testBit_lt_two_pow (hx.trans_le hpow)]
  · simp [hi]

end Words

theorem ringMap_lt {w : WordSize} {order : ℕ} (x : ℕ) : ringMap w order x < cells order := by
  have hpos := cells_pos order
  rw [ringMap, and_cells, and_cells, cells_eq_two_pow] at *
  apply Nat.or_lt_two_pow
  · apply lt_of_le_of_lt (Nat.shiftRight_le _ _)
    exact Nat.mod_lt _ hpos
  · exact Nat.mod_lt _ hpos

/-- Tickets share a cell when they are whole rings apart, and only then. -/
theorem ringMap_eq_iff {w : WordSize} {order : ℕ} (hw : w.minOrder ≤ order + 1) {a b : ℕ} :
    ringMap w order a = ringMap w order b ↔ a % cells order = b % cells order := by
  constructor
  · exact mod_of_ringMap hw
  · intro h
    rw [ringMap, ringMap, and_cells, and_cells, and_cells, and_cells, Nat.shiftLeft_eq,
      Nat.shiftLeft_eq, h, Nat.mul_mod, h, ← Nat.mul_mod]

/-- Positions closer than a ring stay apart when both are moved. -/
theorem eq_of_add_mod {n t i j : ℕ} (hi : i < n) (hj : j < n) (h : (t + i) % n = (t + j) % n) :
    i = j := by
  have hmod : i % n = j % n := Nat.ModEq.add_left_cancel' t h
  rwa [Nat.mod_eq_of_lt hi, Nat.mod_eq_of_lt hj] at hmod

/-- Any run of as many tickets as there are cells fills the ring, across the
end of the words too. -/
theorem wordMap_bijOn {w : WordSize} {order : ℕ} (hw : w.minOrder ≤ order + 1)
    (hn : cells order < 2 ^ w.bits) (t : ℕ) :
    Set.BijOn (fun i => wordMap w (word w (t + i)) order (cells order))
      (Set.Iio (cells order)) (Set.Iio (cells order)) := by
  have hmaps : Set.MapsTo (fun i => wordMap w (word w (t + i)) order (cells order))
      (Set.Iio (cells order)) (Set.Iio (cells order)) := by
    intro i _
    show wordMap w (word w (t + i)) order (cells order) < cells order
    rw [wordMap_eq hn]
    exact ringMap_lt _
  apply ((Set.finite_Iio _).injOn_iff_bijOn_of_mapsTo hmaps).mp
  intro i hi j hj hij
  have heq : wordMap w (word w (t + i)) order (cells order) =
      wordMap w (word w (t + j)) order (cells order) := hij
  rw [wordMap_eq hn, wordMap_eq hn, ringMap_eq_iff hw, word_mod_cells hn, word_mod_cells hn] at heq
  exact eq_of_add_mod hi hj heq

/-- The index map is a bijection between any run of tickets and the cells, it
identifies tickets modulo the number of cells, and the cycle tells these apart. -/
theorem index_map_bijective (w : WordSize) (order : ℕ) (hw : w.minOrder - 1 ≤ order)
    (hn : cells order < 2 ^ w.bits) :
    (∀ t, Set.BijOn (fun i => wordMap w (word w (t + i)) order (cells order))
      (Set.Iio (cells order)) (Set.Iio (cells order))) ∧
    (∀ a < 2 ^ w.bits, ∀ b < 2 ^ w.bits,
      (wordMap w a order (cells order) = wordMap w b order (cells order) ↔
        a % cells order = b % cells order)) ∧
    ∀ a < 2 ^ w.bits, ∀ b < 2 ^ w.bits,
      wordCycle w a (cells order) = wordCycle w b (cells order) →
        wordMap w a order (cells order) = wordMap w b order (cells order) → a = b := by
  have hw' : w.minOrder ≤ order + 1 := by omega
  refine ⟨wordMap_bijOn hw' hn, ?_, ?_⟩
  · intro a _ b _
    rw [wordMap_eq hn, wordMap_eq hn]
    exact ringMap_eq_iff hw'
  · intro a ha b hb hc hm
    rw [wordCycle_eq hn ha, wordCycle_eq hn hb] at hc
    rw [wordMap_eq hn, wordMap_eq hn] at hm
    have hmod := mod_of_ringMap hw' hm
    have ha' := cycle_add order a
    have hb' := cycle_add order b
    omega

/-- The smallest ring of 64-bit words. -/
theorem index_map_bijective_smallest :
    Set.BijOn (fun i => wordMap .w64 (word .w64 (2 ^ 64 - 3 + i)) 2 (cells 2))
      (Set.Iio (cells 2)) (Set.Iio (cells 2)) :=
  (index_map_bijective .w64 2 (by decide) (by decide)).1 (2 ^ 64 - 3)

end Libevl.RingPtr
