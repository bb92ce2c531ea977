import Mathlib.Data.Int.ModEq
import Mathlib.Tactic.Ring

/-!
# The internet checksum

Data are read as words of two bytes, the first one the more significant, and are
padded with a zero byte. Their sum in one's complement, where a carry is added
back, is all ones if the data include their checksum. A host that reads its words
the other way round gets the sum with its bytes exchanged, so that it may compute
the checksum in its own order.
-/
namespace Libevl.InternetChecksum

abbrev Bytes := List (BitVec 8)

/-- The sum of the words, in the order of the network. -/
def netSum : Bytes → ℕ
  | [] => 0
  | [a] => 256 * a.toNat
  | a :: b :: l => 256 * a.toNat + b.toNat + netSum l

/-- The sum of the words, the first byte the less significant. -/
def hostSum : Bytes → ℕ
  | [] => 0
  | [a] => a.toNat
  | a :: b :: l => a.toNat + 256 * b.toNat + hostSum l

/-- Carries out of 16 bits are added back until none is left. -/
def foldCarry (s : ℕ) : ℕ :=
  if s < 2 ^ 16 then s else foldCarry (s % 2 ^ 16 + s / 2 ^ 16)
termination_by s
decreasing_by omega

/-- A receiver accepts data of which the sum has all bits set. -/
def Verifies (l : Bytes) : Prop := foldCarry (netSum l) = 2 ^ 16 - 1

variable {a b : BitVec 8} {l r : Bytes} {s : ℕ}

theorem foldCarry_of_lt (h : s < 2 ^ 16) : foldCarry s = s := by
  rw [foldCarry, if_pos h]

theorem foldCarry_of_ge (h : ¬ s < 2 ^ 16) :
    foldCarry s = foldCarry (s % 2 ^ 16 + s / 2 ^ 16) := by
  conv_lhs => rw [foldCarry, if_neg h]

/-- Folding computes the remainder modulo 65535, with 65535 in the place of 0 except for 0. -/
theorem foldCarry_eq (s : ℕ) : foldCarry s = if s = 0 then 0 else (s - 1) % 65535 + 1 := by
  induction s using Nat.strong_induction_on with
  | _ s ih =>
    by_cases h : s < 2 ^ 16
    · rw [foldCarry_of_lt h]
      split_ifs <;> omega
    · rw [foldCarry_of_ge h, ih _ (by omega)]
      split_ifs <;> omega

theorem foldCarry_lt (s : ℕ) : foldCarry s < 2 ^ 16 := by
  rw [foldCarry_eq]
  split_ifs
  · decide
  · omega

theorem foldCarry_eq_ones_iff : foldCarry s = 2 ^ 16 - 1 ↔ s ≠ 0 ∧ s % 65535 = 0 := by
  rw [foldCarry_eq]
  split_ifs with h
  · simp [h]
  · omega

/-- The complement of a folded sum makes the sum all ones. -/
theorem foldCarry_complement (s : ℕ) : foldCarry (s + (2 ^ 16 - 1 - foldCarry s)) = 2 ^ 16 - 1 := by
  rw [foldCarry_eq_ones_iff, foldCarry_eq]
  split_ifs <;> omega

/-- The order of the bytes only exchanges the bytes of the sum. -/
theorem netSum_modEq (l : Bytes) : netSum l ≡ 256 * hostSum l [MOD 65535] := by
  induction l using netSum.induct with
  | case1 => rfl
  | case2 a => rfl
  | case3 a b l ih =>
    have hword : 256 * a.toNat + b.toNat ≡ 256 * (a.toNat + 256 * b.toNat) [MOD 65535] := by
      rw [Nat.ModEq, show 256 * (a.toNat + 256 * b.toNat) =
        256 * a.toNat + b.toNat + 65535 * b.toNat by ring, Nat.add_mul_mod_self_left]
    rw [netSum, hostSum, Nat.mul_add]
    exact hword.add ih

theorem netSum_eq_zero_iff : netSum l = 0 ↔ hostSum l = 0 := by
  induction l using netSum.induct with
  | case1 => rfl
  | case2 a => simp [netSum, hostSum]
  | case3 a b l ih =>
    rw [netSum, hostSum]
    omega

/-- The check may use either order. -/
theorem verifies_iff_hostSum : Verifies l ↔ foldCarry (hostSum l) = 2 ^ 16 - 1 := by
  have hmod : netSum l % 65535 = 256 * hostSum l % 65535 := netSum_modEq l
  have hcancel : 256 * hostSum l % 65535 = 0 ↔ hostSum l % 65535 = 0 := by omega
  rw [Verifies, foldCarry_eq_ones_iff, foldCarry_eq_ones_iff, ne_eq, ne_eq, netSum_eq_zero_iff,
    hmod, hcancel]

theorem hostSum_append (h : l.length % 2 = 0) : hostSum (l ++ r) = hostSum l + hostSum r := by
  induction l using hostSum.induct with
  | case1 => simp [hostSum]
  | case2 a => simp at h
  | case3 a b l ih =>
    have hl : l.length % 2 = 0 := by
      rw [List.length_cons, List.length_cons] at h
      omega
    rw [List.cons_append, List.cons_append, hostSum, hostSum, ih hl]
    ring

/-- The bytes of a word, the less significant one first. -/
def hostBytes (w : ℕ) : Bytes := [BitVec.ofNat 8 w, BitVec.ofNat 8 (w / 256)]

theorem hostSum_hostBytes {w : ℕ} (h : w < 2 ^ 16) : hostSum (hostBytes w) = w := by
  simp only [hostBytes, hostSum, BitVec.toNat_ofNat]
  omega

/-- Data verify once the complement of their sum stands in a field that was clear. -/
theorem verifies_of_checksum {c : ℕ} (hl : l.length % 2 = 0)
    (hc : c = 2 ^ 16 - 1 - foldCarry (hostSum (l ++ (hostBytes 0 ++ r)))) :
    Verifies (l ++ (hostBytes c ++ r)) := by
  have heven : ∀ w, (hostBytes w).length % 2 = 0 := fun w => by simp [hostBytes]
  have hclear : hostSum (l ++ (hostBytes 0 ++ r)) = hostSum l + hostSum r := by
    rw [hostSum_append hl, hostSum_append (heven 0), hostSum_hostBytes (by decide), Nat.zero_add]
  have hfull : hostSum (l ++ (hostBytes c ++ r)) = hostSum l + hostSum r + c := by
    rw [hostSum_append hl, hostSum_append (heven c), hostSum_hostBytes (by omega)]
    omega
  rw [verifies_iff_hostSum, hfull, hc, hclear]
  exact foldCarry_complement _

end Libevl.InternetChecksum
