import Mathlib.Data.List.Basic
import Mathlib.Algebra.Order.Ring.Nat

/-!
# Buffers of fixed length

Reading and writing some bytes at an offset, which is impossible where the range
does not lie within the buffer.
-/
namespace Libevl.Buffer

variable {α : Type*} {buf a b c src : List α} {off n : ℕ}

/-- Some elements of a buffer. -/
def read (buf : List α) (off n : ℕ) : Option (List α) :=
  if off + n ≤ buf.length then some ((buf.drop off).take n) else none

/-- A buffer with some of its elements overwritten. -/
def write (buf : List α) (off : ℕ) (src : List α) : Option (List α) :=
  if off + src.length ≤ buf.length then
    some (buf.take off ++ src ++ buf.drop (off + src.length))
  else none

theorem read_of_le (h : off + n ≤ buf.length) : read buf off n = some ((buf.drop off).take n) :=
  if_pos h

/-- Writing over a part of the same length. -/
theorem write_part (h : buf = a ++ (b ++ c)) (ha : a.length = off) (hb : b.length = src.length) :
    write buf off src = some (a ++ (src ++ c)) := by
  subst h ha
  have hle : a.length + src.length ≤ (a ++ (b ++ c)).length := by
    simp only [List.length_append]
    omega
  rw [write, if_pos hle, List.take_left, ← hb, List.drop_append, List.append_assoc]
  simp

/-- Reading a part. -/
theorem read_part (h : buf = a ++ (b ++ c)) (ha : a.length = off) (hb : b.length = n) :
    read buf off n = some b := by
  subst h ha hb
  have hle : a.length + b.length ≤ (a ++ (b ++ c)).length := by
    simp only [List.length_append]
    omega
  rw [read, if_pos hle, List.drop_left, List.take_left]

/-- A buffer splits at every offset within it. -/
theorem exists_split (h : off ≤ buf.length) : ∃ a b, buf = a ++ b ∧ a.length = off :=
  ⟨buf.take off, buf.drop off, (List.take_append_drop off buf).symm, by simp [h]⟩

end Libevl.Buffer
