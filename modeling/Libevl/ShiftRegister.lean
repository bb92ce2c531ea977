import Mathlib.Data.List.Basic
import Mathlib.Logic.Function.Iterate

/-!
# Shift registers with feedback

A register of `w` bits takes the bits of a message at its top, and adds a constant
whenever it shifts out a one. It is linear, and no state is lost when the constant
is odd. So two messages which differ within `w` consecutive bits leave it in
different states, however long they are.
-/
namespace Libevl.ShiftRegister

variable {w : ℕ} {p c c' x y : BitVec w}

/-- One shift, with the feedback `p`. -/
def shift (p x : BitVec w) : BitVec w := if x.msb then x <<< 1 ^^^ p else x <<< 1

/-- The bit of a message, at the top of the register. -/
def topBit (w : ℕ) (b : Bool) : BitVec w := if b then BitVec.twoPow w (w - 1) else 0

/-- The register after a message. -/
def feed (p c : BitVec w) (bits : List Bool) : BitVec w :=
  bits.foldl (fun c b => shift p (c ^^^ topBit w b)) c

/-- The bits of a message from the top of a word on. -/
def word (w : ℕ) : List Bool → BitVec w
  | [] => 0
  | b :: bits => topBit w b ^^^ word w bits >>> 1

/-- Messages of one length that are equal outside of `w` consecutive bits. -/
def Near (w : ℕ) (ms ms' : List Bool) : Prop :=
  ms.length = ms'.length ∧ ∃ i, ∀ j, j < i ∨ i + w ≤ j → ms[j]? = ms'[j]?

@[simp] theorem feed_nil : feed p c [] = c := rfl

@[simp] theorem feed_cons {b : Bool} {bits : List Bool} :
    feed p c (b :: bits) = feed p (shift p (c ^^^ topBit w b)) bits := rfl

@[simp] theorem feed_append {bits bits' : List Bool} :
    feed p c (bits ++ bits') = feed p (feed p c bits) bits' := List.foldl_append

theorem xor_eq_zero (h : x ^^^ y = 0) : x = y := by
  apply BitVec.eq_of_getLsbD_eq
  intro i hi
  have hbit := congrArg (fun z => z.getLsbD i) h
  simpa using hbit

theorem getLsbD_shift (i : ℕ) :
    (shift p x).getLsbD i = ((x <<< 1).getLsbD i ^^ (x.msb && p.getLsbD i)) := by
  unfold shift
  cases x.msb with
  | false => simp
  | true => simp

/-- The register is linear. -/
theorem shift_xor : shift p (x ^^^ y) = shift p x ^^^ shift p y := by
  have hbits : ∀ a b m n q : Bool, ((a ^^ b) ^^ ((m ^^ n) && q)) = ((a ^^ (m && q)) ^^ (b ^^ (n && q))) := by
    decide
  apply BitVec.eq_of_getLsbD_eq
  intro i hi
  simp only [getLsbD_shift, BitVec.shiftLeft_xor_distrib, BitVec.getLsbD_xor, BitVec.msb_xor, hbits]

/-- With odd feedback, only zero is shifted to zero. -/
theorem shift_eq_zero (hp : p.getLsbD 0 = true) (h : shift p x = 0) : x = 0 := by
  have hw : 0 < w := BitVec.lt_of_getLsbD hp
  unfold shift at h
  split_ifs at h with hmsb
  · have hbit := congrArg (fun z => z.getLsbD 0) h
    simp [hp] at hbit
  · apply BitVec.eq_of_getLsbD_eq
    intro i hi
    by_cases htop : i + 1 < w
    · have hbit := congrArg (fun z => z.getLsbD (i + 1)) h
      simpa [htop, BitVec.getLsbD_eq_getElem hi] using hbit
    · obtain rfl : i = w - 1 := by omega
      rw [BitVec.msb_eq_getLsbD_last] at hmsb
      simpa using hmsb

theorem shift_injective (hp : p.getLsbD 0 = true) : Function.Injective (shift p) := by
  intro x y h
  apply xor_eq_zero
  apply shift_eq_zero hp
  rw [shift_xor, h, BitVec.xor_self]
  rfl

/-- A word is the shift of its upper bits. -/
theorem shift_ushiftRight (h : x.getLsbD 0 = false) : shift p (x >>> 1) = x := by
  have hmsb : (x >>> 1).msb = false := by simp [BitVec.msb_ushiftRight]
  rw [shift, hmsb, if_neg (by decide)]
  apply BitVec.eq_of_getLsbD_eq
  intro i hi
  cases i with
  | zero => simp [h]
  | succ i => simp [hi, Nat.add_comm]

/-- The bits below a message are zero. -/
theorem getLsbD_word {bits : List Bool} {i : ℕ} (h : i + bits.length < w) :
    (word w bits).getLsbD i = false := by
  induction bits generalizing i with
  | nil => simp [word]
  | cons b bits ih =>
    rw [List.length_cons] at h
    have htop : (topBit w b).getLsbD i = false := by
      unfold topBit
      split_ifs
      · simp [BitVec.getLsbD_twoPow]
        omega
      · simp
    rw [word, BitVec.getLsbD_xor, htop, BitVec.getLsbD_ushiftRight, ih (by omega)]
    rfl

theorem msb_word {b : Bool} {bits : List Bool} (hw : 0 < w) : (word w (b :: bits)).msb = b := by
  rw [word, BitVec.msb_xor, BitVec.msb_ushiftRight]
  unfold topBit
  cases b with
  | false => simp
  | true =>
    simp [BitVec.msb_twoPow]
    omega

/-- A message as long as the register, or shorter, goes in at once. -/
theorem feed_eq {bits : List Bool} (h : bits.length ≤ w) :
    feed p c bits = (shift p)^[bits.length] (c ^^^ word w bits) := by
  induction bits generalizing c with
  | nil => simp [word]
  | cons b bits ih =>
    rw [List.length_cons] at h
    have hword : shift p (word w bits >>> 1) = word w bits :=
      shift_ushiftRight (getLsbD_word (by omega))
    calc
      feed p c (b :: bits) = feed p (shift p (c ^^^ topBit w b)) bits := rfl
      _ = (shift p)^[bits.length] (shift p (c ^^^ topBit w b) ^^^ word w bits) := ih (by omega)
      _ = (shift p)^[bits.length] (shift p (c ^^^ word w (b :: bits))) := by
        rw [word, ← BitVec.xor_assoc, shift_xor (y := word w bits >>> 1), hword]
      _ = (shift p)^[(b :: bits).length] (c ^^^ word w (b :: bits)) := rfl

theorem word_injective {bits bits' : List Bool} (hlen : bits.length = bits'.length)
    (h : bits.length ≤ w) (heq : word w bits = word w bits') : bits = bits' := by
  induction bits generalizing bits' with
  | nil => exact (List.eq_nil_of_length_eq_zero hlen.symm).symm
  | cons b bits ih =>
    cases bits' with
    | nil => cases hlen
    | cons b' bits' =>
      rw [List.length_cons] at h
      simp only [List.length_cons, Nat.add_right_cancel_iff] at hlen
      have hb : b = b' := by
        have hmsb := congrArg BitVec.msb heq
        rwa [msb_word (by omega), msb_word (by omega)] at hmsb
      subst hb
      have hshift : word w bits >>> 1 = word w bits' >>> 1 := (BitVec.xor_right_inj _).mp heq
      have hlow : (word w bits).getLsbD 0 = false := getLsbD_word (by omega)
      have hlow' : (word w bits').getLsbD 0 = false := getLsbD_word (by omega)
      have hrest : word w bits = word w bits' := by
        rw [← shift_ushiftRight (p := 0) hlow, hshift, shift_ushiftRight hlow']
      rw [ih hlen (by omega) hrest]

/-- Different states stay different. -/
theorem feed_injective (hp : p.getLsbD 0 = true) {bits : List Bool}
    (h : feed p c bits = feed p c' bits) : c = c' := by
  induction bits generalizing c c' with
  | nil => exact h
  | cons b bits ih =>
    have hshift := shift_injective hp (ih h)
    exact (BitVec.xor_left_inj _).mp hshift

/-- Messages which differ within `w` bits are told apart. -/
theorem feed_ne_of_near (hp : p.getLsbD 0 = true) {ms ms' : List Bool} (h : Near w ms ms')
    (hne : ms ≠ ms') : feed p c ms ≠ feed p c ms' := by
  obtain ⟨hlen, i, hout⟩ := h
  have hstart : ms.take i = ms'.take i := by
    apply List.ext_getElem?
    intro j
    by_cases hj : j < i
    · rw [List.getElem?_take_of_lt hj, List.getElem?_take_of_lt hj, hout j (.inl hj)]
    · rw [List.getElem?_take_eq_none (by omega), List.getElem?_take_eq_none (by omega)]
  have hend : ms.drop (i + w) = ms'.drop (i + w) := by
    apply List.ext_getElem?
    intro j
    rw [List.getElem?_drop, List.getElem?_drop, hout _ (.inr (by omega))]
  have hsplit (ls : List Bool) :
      ls = ls.take i ++ ((ls.drop i).take w ++ ls.drop (i + w)) := by
    rw [← List.drop_drop, List.take_append_drop, List.take_append_drop]
  intro heq
  rw [hsplit ms, hsplit ms', hstart, hend, feed_append, feed_append, feed_append, feed_append] at heq
  -- the ends leave the difference within the window as it is
  have hwindow := feed_injective hp heq
  have hshort (ls : List Bool) : ((ls.drop i).take w).length ≤ w := List.length_take_le ..
  have hsame : ((ms.drop i).take w).length = ((ms'.drop i).take w).length := by simp [hlen]
  rw [feed_eq (hshort ms), feed_eq (hshort ms'), hsame] at hwindow
  have hword := (BitVec.xor_right_inj _).mp ((shift_injective hp).iterate _ hwindow)
  have hbits := word_injective hsame (hshort ms) hword
  apply hne
  rw [hsplit ms, hsplit ms', hstart, hbits, hend]

end Libevl.ShiftRegister
