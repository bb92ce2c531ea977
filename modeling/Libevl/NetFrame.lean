import Libevl.ShiftRegister
import Mathlib.Algebra.Order.Ring.Int
import Mathlib.Data.List.GetD

/-!
# The frames of latmus

A frame is a serial number in hexadecimal after a `^`, a payload, and a checksum in
hexadecimal after a `$`. Characters and octets are words of 8 bits, an `int` wraps at
32 bits, and a `size_t` at 64 bits.
-/
namespace Libevl.Net
open ShiftRegister

/-- The table of the checksum. -/
def crc8Ccitt : List (BitVec 8) := [
  0x00, 0x8d, 0x97, 0x1a, 0xa3, 0x2e, 0x34, 0xb9, 0xcb, 0x46, 0x5c, 0xd1, 0x68, 0xe5, 0xff, 0x72,
  0x1b, 0x96, 0x8c, 0x01, 0xb8, 0x35, 0x2f, 0xa2, 0xd0, 0x5d, 0x47, 0xca, 0x73, 0xfe, 0xe4, 0x69,
  0x36, 0xbb, 0xa1, 0x2c, 0x95, 0x18, 0x02, 0x8f, 0xfd, 0x70, 0x6a, 0xe7, 0x5e, 0xd3, 0xc9, 0x44,
  0x2d, 0xa0, 0xba, 0x37, 0x8e, 0x03, 0x19, 0x94, 0xe6, 0x6b, 0x71, 0xfc, 0x45, 0xc8, 0xd2, 0x5f,
  0x6c, 0xe1, 0xfb, 0x76, 0xcf, 0x42, 0x58, 0xd5, 0xa7, 0x2a, 0x30, 0xbd, 0x04, 0x89, 0x93, 0x1e,
  0x77, 0xfa, 0xe0, 0x6d, 0xd4, 0x59, 0x43, 0xce, 0xbc, 0x31, 0x2b, 0xa6, 0x1f, 0x92, 0x88, 0x05,
  0x5a, 0xd7, 0xcd, 0x40, 0xf9, 0x74, 0x6e, 0xe3, 0x91, 0x1c, 0x06, 0x8b, 0x32, 0xbf, 0xa5, 0x28,
  0x41, 0xcc, 0xd6, 0x5b, 0xe2, 0x6f, 0x75, 0xf8, 0x8a, 0x07, 0x1d, 0x90, 0x29, 0xa4, 0xbe, 0x33,
  0xd8, 0x55, 0x4f, 0xc2, 0x7b, 0xf6, 0xec, 0x61, 0x13, 0x9e, 0x84, 0x09, 0xb0, 0x3d, 0x27, 0xaa,
  0xc3, 0x4e, 0x54, 0xd9, 0x60, 0xed, 0xf7, 0x7a, 0x08, 0x85, 0x9f, 0x12, 0xab, 0x26, 0x3c, 0xb1,
  0xee, 0x63, 0x79, 0xf4, 0x4d, 0xc0, 0xda, 0x57, 0x25, 0xa8, 0xb2, 0x3f, 0x86, 0x0b, 0x11, 0x9c,
  0xf5, 0x78, 0x62, 0xef, 0x56, 0xdb, 0xc1, 0x4c, 0x3e, 0xb3, 0xa9, 0x24, 0x9d, 0x10, 0x0a, 0x87,
  0xb4, 0x39, 0x23, 0xae, 0x17, 0x9a, 0x80, 0x0d, 0x7f, 0xf2, 0xe8, 0x65, 0xdc, 0x51, 0x4b, 0xc6,
  0xaf, 0x22, 0x38, 0xb5, 0x0c, 0x81, 0x9b, 0x16, 0x64, 0xe9, 0xf3, 0x7e, 0xc7, 0x4a, 0x50, 0xdd,
  0x82, 0x0f, 0x15, 0x98, 0x21, 0xac, 0xb6, 0x3b, 0x49, 0xc4, 0xde, 0x53, 0xea, 0x67, 0x7d, 0xf0,
  0x99, 0x14, 0x0e, 0x83, 0x3a, 0xb7, 0xad, 0x20, 0x52, 0xdf, 0xc5, 0x48, 0xf1, 0x7c, 0x66, 0xeb]

/-- `generate_crc`. -/
def generateCrc (buf : List (BitVec 8)) : BitVec 8 :=
  buf.foldl (fun crc p => crc8Ccitt.getD (crc ^^^ p).toNat 0) 0xff

/-- `d_to_x`. -/
def dToX (d : ℕ) : BitVec 8 := BitVec.ofNat 8 (if d < 10 then d + 48 else d - 10 + 97)

/-- `x_to_d`. -/
def xToD (x : BitVec 8) : BitVec 8 := if 48 ≤ x ∧ x ≤ 57 then x - 48 else x - 97 + 10

/-- The last `n` hexadecimal digits of a number, as `printf` writes them. -/
def hex : ℕ → ℕ → List (BitVec 8)
  | 0, _ => []
  | n + 1, x => hex n (x / 16) ++ [dToX (x % 16)]

/-- The part of a frame that is covered by the checksum. The payload is 17 bytes behind the start,
and 3 before the end. -/
def coveredPart (packetSize oseq : ℕ) : List (BitVec 8) :=
  94 :: hex 16 oseq ++ List.replicate (packetSize - 20) (BitVec.ofNat 8 (65 + oseq % 26)) ++ [36]

/-- `prepare_output`, for packet sizes beyond `FRAME_METADATA_LEN`. -/
def prepareOutput (packetSize oseq : ℕ) : List (BitVec 8) :=
  let crc := (generateCrc (coveredPart packetSize oseq)).toNat
  coveredPart packetSize oseq ++ [dToX (crc / 16), dToX (crc % 16)]

/-- A conversion to `int`, and one from there to `size_t`. -/
def int (x : ℤ) : ℤ := x.bmod (2 ^ 32)

def toSize (x : ℤ) : ℕ := (x % 2 ^ 64).toNat

/-- The cases of a digit. -/
def digit (x : BitVec 8) : Option ℤ :=
  if 48 ≤ x ∧ x ≤ 57 then some (x.toNat - 48)
  else if 97 ≤ x ∧ x ≤ 102 then some (x.toNat - 97 + 10)
  else none

/-- The loop of `parse_input`: `n` digits are left, of which the next one is at `p`. -/
def parseLoop (packet : List (BitVec 8)) : ℕ → ℕ → ℕ → ℤ → Option ℕ
  | 0, _, serial, _ => some serial
  | n + 1, p, serial, r =>
    match digit (packet.getD p 0) with
    | none => none
    | some d => parseLoop packet n (p - 1) ((serial + toSize (int (d * r))) % 2 ^ 64) (int (r * 16))

/-- `parse_input`; none is `false`. -/
def parseInput (packetSize : ℕ) (packet : List (BitVec 8)) : Option ℕ :=
  let crc := xToD (packet.getD (packetSize - 2) 0) * 16 + xToD (packet.getD (packetSize - 1) 0)
  if generateCrc (packet.take (packetSize - 2)) ≠ crc then none
  else parseLoop packet 16 16 0 1

section RoundTrip

variable {size serial n m : ℕ}

theorem length_hex (n x : ℕ) : (hex n x).length = n := by
  induction n generalizing x with
  | zero => rfl
  | succ n ih => rw [hex, List.length_append, ih, List.length_singleton]

theorem length_coveredPart (hsize : 20 < size) : (coveredPart size serial).length = size - 2 := by
  rw [coveredPart]
  simp only [List.cons_append, List.length_cons, List.length_append, length_hex,
    List.length_replicate, List.length_nil]
  omega

theorem length_prepareOutput (hsize : 20 < size) : (prepareOutput size serial).length = size := by
  rw [prepareOutput]
  simp only [List.length_append, length_coveredPart hsize, List.length_cons, List.length_nil]
  omega

/-- The digit `k` of a number, counted from its end. -/
theorem getD_hex {k : ℕ} (x : ℕ) (hk : k < n) :
    (hex n x).getD (n - 1 - k) 0 = dToX (x / 16 ^ k % 16) := by
  induction n generalizing x k with
  | zero => omega
  | succ n ih =>
    cases k with
    | zero =>
      rw [hex, List.getD_append_right _ _ _ _ (by rw [length_hex]; omega), length_hex]
      simp
    | succ k =>
      rw [hex, List.getD_append _ _ _ _ (by rw [length_hex]; omega),
        show n + 1 - 1 - (k + 1) = n - 1 - k by omega, ih _ (by omega), Nat.div_div_eq_div_mul,
        pow_succ']

theorem digit_dToX {d : ℕ} (hd : d < 16) : digit (dToX d) = some (d : ℤ) := by
  have hall : ∀ d < 16, digit (dToX d) = some (d : ℤ) := by decide
  exact hall d hd

/-- The digits of the serial number of a frame. -/
theorem digit_prepareOutput {k : ℕ} (hk : k < 16) :
    digit ((prepareOutput size serial).getD (16 - k) 0) = some ((serial / 16 ^ k % 16 : ℕ) : ℤ) := by
  have hget : (prepareOutput size serial).getD (16 - k) 0 = dToX (serial / 16 ^ k % 16) := by
    rw [prepareOutput, coveredPart, show 16 - k = (16 - 1 - k) + 1 by omega]
    simp only [List.cons_append, List.append_assoc, List.getD_cons_succ]
    rw [List.getD_append _ _ _ _ (by rw [length_hex]; omega), getD_hex serial hk]
  rw [hget, digit_dToX (Nat.mod_lt _ (by decide))]

/-- The checksum of a frame is read back. -/
theorem crc_prepareOutput (hsize : 20 < size) :
    xToD ((prepareOutput size serial).getD (size - 2) 0) * 16 +
      xToD ((prepareOutput size serial).getD (size - 1) 0) =
        generateCrc (coveredPart size serial) := by
  have hall : ∀ x : BitVec 8, xToD (dToX (x.toNat / 16)) * 16 + xToD (dToX (x.toNat % 16)) = x := by
    decide
  have hlen : (coveredPart size serial).length = size - 2 := length_coveredPart hsize
  rw [prepareOutput, List.getD_append_right _ _ _ _ (by omega),
    List.getD_append_right _ _ _ _ (by omega), hlen, show size - 2 - (size - 2) = 0 by omega,
    show size - 1 - (size - 2) = 1 by omega]
  exact hall _

theorem take_prepareOutput (hsize : 20 < size) :
    (prepareOutput size serial).take (size - 2) = coveredPart size serial := by
  have hlen : (coveredPart size serial).length = size - 2 := length_coveredPart hsize
  rw [prepareOutput, ← hlen, List.take_left]

/-- The conversion of the lower half of a number to `int`, and from there to `size_t`. -/
def signExtend (x : ℕ) : ℕ := if x < 2 ^ 31 then x else x + (2 ^ 64 - 2 ^ 32)

section Digits

variable {packet : List (BitVec 8)}

/-- The packet has the digits of the serial number. -/
def Digits (packet : List (BitVec 8)) (serial : ℕ) : Prop :=
  ∀ k < 16, digit (packet.getD (16 - k) 0) = some ((serial / 16 ^ k % 16 : ℕ) : ℤ)

theorem int_of_lt {x : ℕ} (h : x < 2 ^ 31) : int x = x := by
  rw [int, Int.bmod_eq_of_le (by omega) (by omega)]

theorem toSize_natCast {x : ℕ} (h : x < 2 ^ 64) : toSize x = x := by
  rw [toSize]
  omega

theorem parse_step (h : Digits packet serial) (hm : m < 16) (acc : ℕ) (r : ℤ) :
    parseLoop packet (16 - m) (16 - m) acc r = parseLoop packet (16 - (m + 1)) (16 - (m + 1))
      ((acc + toSize (int ((serial / 16 ^ m % 16 : ℕ) * r))) % 2 ^ 64) (int (r * 16)) := by
  have hd := h m hm
  obtain ⟨n, hn⟩ : ∃ n, 16 - m = n + 1 := ⟨15 - m, by omega⟩
  rw [hn] at hd
  rw [hn, parseLoop, hd, show 16 - (m + 1) = n by omega, Nat.add_sub_cancel]

theorem digit_mul (d m : ℕ) : (d : ℤ) * ((16 ^ m : ℕ) : ℤ) = ((16 ^ m * d : ℕ) : ℤ) := by
  rw [Nat.cast_mul, mul_comm]

theorem parseLoop_lt {p acc x : ℕ} {r : ℤ} (hacc : acc < 2 ^ 64)
    (h : parseLoop packet n p acc r = some x) : x < 2 ^ 64 := by
  induction n generalizing p acc r with
  | zero =>
    cases h
    exact hacc
  | succ n ih =>
    rw [parseLoop] at h
    split at h
    · cases h
    · exact ih (Nat.mod_lt _ (by decide)) h

/-- The first seven digits count as they should. -/
theorem parse_low (h : Digits packet serial) (hm : m ≤ 7) :
    parseLoop packet 16 16 0 1 =
      parseLoop packet (16 - m) (16 - m) (serial % 16 ^ m) ((16 ^ m : ℕ) : ℤ) := by
  induction m with
  | zero => simp [Nat.mod_one]
  | succ m ih =>
    have hpow : 16 ^ (m + 1) ≤ 16 ^ 7 := Nat.pow_le_pow_right (by decide) hm
    have hnext : 16 ^ (m + 1) = 16 ^ m * 16 := pow_succ 16 m
    have hsum : serial % 16 ^ m + 16 ^ m * (serial / 16 ^ m % 16) = serial % 16 ^ (m + 1) := by
      rw [hnext, Nat.mod_mul]
    have hlt : serial % 16 ^ (m + 1) < 16 ^ (m + 1) := Nat.mod_lt _ (Nat.pow_pos (by decide))
    have hr : int (((16 ^ m : ℕ) : ℤ) * 16) = ((16 ^ (m + 1) : ℕ) : ℤ) := by
      rw [hnext, Nat.cast_mul]
      exact int_of_lt (x := 16 ^ m * 16) (by omega)
    rw [ih (by omega), parse_step h (by omega), digit_mul, int_of_lt (by omega),
      toSize_natCast (by omega), hsum, Nat.mod_eq_of_lt (by omega), hr]

/-- The eighth digit makes the number negative or not, and there is no power left behind it. -/
theorem parse_eight (h : Digits packet serial) :
    parseLoop packet 16 16 0 1 = parseLoop packet 8 8 (signExtend (serial % 2 ^ 32)) 0 := by
  have hsplit : serial % 2 ^ 32 = serial % 16 ^ 7 + 16 ^ 7 * (serial / 16 ^ 7 % 16) := by
    rw [← Nat.mod_mul, show 16 ^ 7 * 16 = 2 ^ 32 by decide]
  have hd : serial / 16 ^ 7 % 16 < 16 := Nat.mod_lt _ (by decide)
  have hlow : serial % 16 ^ 7 < 16 ^ 7 := Nat.mod_lt _ (by decide)
  have hacc : (serial % 16 ^ 7 + toSize (int ((16 ^ 7 * (serial / 16 ^ 7 % 16) : ℕ) : ℤ))) % 2 ^ 64 =
      signExtend (serial % 2 ^ 32) := by
    rw [hsplit, signExtend, int, toSize, Int.bmod_def]
    generalize serial / 16 ^ 7 % 16 = d at *
    generalize serial % 16 ^ 7 = x at *
    split_ifs
    all_goals omega
  rw [parse_low h le_rfl, parse_step h (by decide), digit_mul, hacc]
  rfl

/-- The other digits count for nothing. -/
theorem parse_zero (h : Digits packet serial) (hn : n ≤ 16) {acc : ℕ} (hacc : acc < 2 ^ 64) :
    parseLoop packet n n acc 0 = some acc := by
  induction n with
  | zero => rfl
  | succ n ih =>
    have hstep := parse_step h (show 16 - (n + 1) < 16 by omega) acc 0
    rw [show 16 - (16 - (n + 1)) = n + 1 by omega, show 16 - (16 - (n + 1) + 1) = n by omega,
      mul_zero, zero_mul] at hstep
    rw [hstep, show (acc + toSize (int 0)) % 2 ^ 64 = acc from Nat.mod_eq_of_lt hacc]
    exact ih (by omega)

theorem parse_digits (h : Digits packet serial) :
    parseLoop packet 16 16 0 1 = some (signExtend (serial % 2 ^ 32)) := by
  have hlt : signExtend (serial % 2 ^ 32) < 2 ^ 64 := by
    unfold signExtend
    split_ifs
    · omega
    · omega
  rw [parse_eight h, parse_zero h (by decide) hlt]

end Digits

theorem parseInput_lt {packet : List (BitVec 8)} (h : parseInput size packet = some n) :
    n < 2 ^ 64 := by
  unfold parseInput at h
  simp only at h
  split_ifs at h
  exact parseLoop_lt (by decide) h

theorem parse_prepareOutput (hsize : 20 < size) :
    parseInput size (prepareOutput size serial) = some (signExtend (serial % 2 ^ 32)) := by
  rw [parseInput, crc_prepareOutput hsize, take_prepareOutput hsize]
  simp only [ne_eq, not_true_eq_false, if_false]
  exact parse_digits fun k hk => digit_prepareOutput hk

/-- A frame is parsed to its serial number if and only if that is the sign extension of its lower
half. -/
theorem parse_iff (hsize : 20 < size) (hserial : serial < 2 ^ 64) :
    parseInput size (prepareOutput size serial) = some serial ↔
      serial < 2 ^ 31 ∨ 2 ^ 64 - 2 ^ 31 ≤ serial := by
  rw [parse_prepareOutput hsize, Option.some.injEq, signExtend]
  split_ifs with hlt
  · omega
  · omega

theorem parse_iff_small : parseInput 64 (prepareOutput 64 12345) = some 12345 :=
  (parse_iff (by decide) (by decide)).mpr (by decide)

/-- The serial number 2^31 is parsed to 2^64 - 2^31. -/
theorem not_parse_large : ¬ ∀ size serial, 20 < size → serial < 2 ^ 64 →
    parseInput size (prepareOutput size serial) = some serial := by
  intro h
  have hparse := h 64 (2 ^ 31) (by decide) (by decide)
  rw [parse_prepareOutput (by decide)] at hparse
  cases hparse

end RoundTrip

section Corruption

variable {size serial : ℕ} {frame frame' : List (BitVec 8)}

/-- The bits of an octet, the most significant one first. -/
def octetBits (x : BitVec 8) : List Bool := (List.range 8).map x.getMsbD

def bits (buf : List (BitVec 8)) : List Bool := buf.flatMap octetBits

/-- Some of at most eight consecutive bits that the checksum covers are changed. -/
structure LocalChange (size : ℕ) (frame frame' : List (BitVec 8)) : Prop where
  near : Near 8 (bits (frame.take (size - 2))) (bits (frame'.take (size - 2)))
  rest : frame'.drop (size - 2) = frame.drop (size - 2)
  changed : frame' ≠ frame

/-- The table is the shift register with the polynomial x^8 + x^7 + x^3 + x^2 + 1. -/
theorem crc8Ccitt_eq (x : BitVec 8) : crc8Ccitt.getD x.toNat 0 = (shift 0x8d)^[8] x := by
  have hall : ∀ x : BitVec 8, crc8Ccitt.getD x.toNat 0 = (shift 0x8d)^[8] x := by decide
  exact hall x

theorem word_octetBits (x : BitVec 8) : word 8 (octetBits x) = x := by
  have hall : ∀ x : BitVec 8, word 8 (octetBits x) = x := by decide
  exact hall x

theorem length_octetBits (x : BitVec 8) : (octetBits x).length = 8 := by
  rw [octetBits, List.length_map, List.length_range]

/-- The checksum is what the register holds after all bits. -/
theorem generateCrc_eq (buf : List (BitVec 8)) : generateCrc buf = feed 0x8d 0xff (bits buf) := by
  have hfold (crc : BitVec 8) : buf.foldl (fun crc p => crc8Ccitt.getD (crc ^^^ p).toNat 0) crc =
      feed 0x8d crc (bits buf) := by
    induction buf generalizing crc with
    | nil => rfl
    | cons x buf ih =>
      have hbits : bits (x :: buf) = octetBits x ++ bits buf := rfl
      rw [List.foldl_cons, ih, hbits, feed_append, feed_eq (length_octetBits x).le,
        word_octetBits, length_octetBits, crc8Ccitt_eq]
  exact hfold 0xff

theorem octetBits_injective {x y : BitVec 8} (h : octetBits x = octetBits y) : x = y := by
  rw [← word_octetBits x, h, word_octetBits]

theorem bits_injective (h : bits frame = bits frame') : frame = frame' := by
  induction frame generalizing frame' with
  | nil =>
    cases frame' with
    | nil => rfl
    | cons y frame' => cases h
  | cons x frame ih =>
    cases frame' with
    | nil => cases h
    | cons y frame' =>
      have hsplit : octetBits x ++ bits frame = octetBits y ++ bits frame' := h
      obtain ⟨hx, hrest⟩ := List.append_inj hsplit (by rw [length_octetBits, length_octetBits])
      rw [octetBits_injective hx, ih hrest]

/-- A local change changes the checksum. -/
theorem LocalChange.crc_ne (h : LocalChange size frame frame') :
    generateCrc (frame.take (size - 2)) ≠ generateCrc (frame'.take (size - 2)) := by
  rw [generateCrc_eq, generateCrc_eq]
  refine feed_ne_of_near (by decide) h.near fun hbits => h.changed ?_
  rw [← List.take_append_drop (size - 2) frame', h.rest, ← bits_injective hbits,
    List.take_append_drop]

/-- A frame with a local corruption is rejected. -/
theorem parse_corrupted (hsize : 20 < size) (h : LocalChange size (prepareOutput size serial) frame') :
    parseInput size frame' = none := by
  have hne := h.crc_ne
  rw [take_prepareOutput hsize, ← crc_prepareOutput hsize] at hne
  have hget {i : ℕ} (hi : size - 2 ≤ i) :
      frame'.getD i 0 = (prepareOutput size serial).getD i 0 := by
    have hdrop := congrArg (fun l => l[i - (size - 2)]?) h.rest
    simp only [List.getElem?_drop, show size - 2 + (i - (size - 2)) = i by omega] at hdrop
    rw [List.getD_eq_getElem?_getD, hdrop, ← List.getD_eq_getElem?_getD]
  rw [parseInput, hget (by omega), hget (by omega), if_pos hne.symm]

theorem near_octet (A B : List (BitVec 8)) (x y : BitVec 8) :
    Near 8 (bits (A ++ x :: B)) (bits (A ++ y :: B)) := by
  have hsplit (z : BitVec 8) : bits (A ++ z :: B) = bits A ++ (octetBits z ++ bits B) :=
    List.flatMap_append
  have hx := length_octetBits x
  have hy := length_octetBits y
  rw [hsplit, hsplit]
  refine ⟨by simp only [List.length_append, hx, hy], (bits A).length, fun j hj => ?_⟩
  rcases hj with hj | hj
  · rw [List.getElem?_append_left hj, List.getElem?_append_left hj]
  · rw [List.getElem?_append_right (by omega), List.getElem?_append_right (by omega),
      List.getElem?_append_right (by omega), List.getElem?_append_right (by omega), hx, hy]

/-- The start of a frame is changed. -/
theorem parse_corrupted_start : parseInput 21 ((prepareOutput 21 7).set 0 95) = none := by
  have hframe : prepareOutput 21 7 = 94 :: (prepareOutput 21 7).tail := rfl
  refine parse_corrupted (show 20 < 21 by decide) (?_ : LocalChange 21 (prepareOutput 21 7) _)
  rw [hframe]
  constructor
  · exact near_octet [] _ _ _
  · rfl
  · rw [List.set_cons_zero]
    exact fun h => absurd (List.cons.inj h).1 (by decide)

end Corruption

end Libevl.Net
