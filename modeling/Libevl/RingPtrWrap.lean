import Libevl.RingPtrAlone

/-!
# The pointer ring on machine words

One thread, and tickets of one machine word: counters, sums and differences
wrap. `__evl_ringptr_cmp` takes the sign of a difference, the other comparisons
of the source compare the words as they are. The threshold stays within twice
the number of cells and does not wrap.
-/
namespace Libevl.RingPtr
open Transition

/-- `__WORDSIZE`. -/
def WordSize.bits : WordSize → ℕ
  | .w32 => 32
  | .w64 => 64

/-- A conversion to `lfatomic_t`. -/
def word (w : WordSize) (x : ℕ) : ℕ := x % 2 ^ w.bits

/-- `(lfsatomic_t)(x - y)`. -/
def signedDiff (w : WordSize) (x y : ℕ) : ℤ := Int.bmod ((x : ℤ) - y) (2 ^ w.bits)

/-- The size of the array, in bytes, is a `size_t`. -/
def Fits (w : WordSize) (order : ℕ) : Prop := cells order * (2 * w.bits / 8) < 2 ^ w.bits

/-- A ring with its only thread. -/
structure Solo where
  ring : Ring
  thread : Thread

/-- A cleared ring, with the cursor set by `evl_init_cursor`. -/
def soloInitial (order : ℕ) : Solo := ⟨ringClear order, ⟨.idle, cells order, .none⟩⟩

/-- The end of the enqueue loop. -/
def wrapNext (w : WordSize) (order : ℕ) (t : Thread) (ptr tail : ℕ) : Thread :=
  if word w (t.cursor + cells order) ≤ word w (tail + 1) then t.at (.enqReloadHead ptr tail)
  else t.at (.enqFetchTail ptr)

/-- `retry:`, the test on the pair that was read last. -/
def wrapRetry (w : WordSize) (order : ℕ) (t : Thread) (ptr tail : ℕ) (pair : Cell) : Thread :=
  let ecycle := cycle order pair.entry
  let tcycle := cycle order tail
  if signedDiff w ecycle tcycle < 0 ∧ pair.entry = ecycle then t.at (.enqCas ptr tail pair)
  else if signedDiff w ecycle tcycle < 0 ∧ pair.entry = ecycle ||| 0x2 then
    t.at (.enqCheckHead ptr tail pair)
  else wrapNext w order t ptr tail

/-- The body of the do-while loop, up to the compare-exchange. -/
def wrapVerdict (w : WordSize) (order head entry : ℕ) : Verdict :=
  if cycle order entry = cycle order head then .take
  else if andNot entry 0x2 ≠ cycle order entry ∧ entry = entry ||| 0x2 then .skip
  else if signedDiff w (cycle order entry) (cycle order head) < 0 then .exchange
  else .skip

/-- The dequeue goes on with the entry it has just read. -/
def wrapCheck (w : WordSize) (order : ℕ) (t : Thread) (head entry : ℕ) : Thread :=
  match wrapVerdict w order head entry with
  | .take => t.at (.deqTake head)
  | .skip => t.at (.deqLoadTail head)
  | .exchange => t.at (.deqCas head entry)

/-- One atomic step inside an operation. `spurious` makes the weak compare-exchange fail. -/
def wrapStep (w : WordSize) (order : ℕ) (s : Solo) (spurious : Bool) : Option Solo :=
  let n := cells order
  let r := s.ring
  let t := s.thread
  match t.pc with
  | .idle => none
  | .enqLoadTail ptr =>
    if word w (t.cursor + n) ≤ r.tail then some ⟨r, t.at (.enqLoadHead ptr r.tail)⟩
    else some ⟨r, t.at (.enqFetchTail ptr)⟩
  | .enqLoadHead ptr tail =>
    let t := { t with cursor := r.head }
    if word w (t.cursor + n) ≤ tail then some ⟨r, t.returns (.enqueued false)⟩
    else some ⟨r, t.at (.enqFetchTail ptr)⟩
  | .enqFetchTail ptr =>
    some ⟨{ r with tail := word w (r.tail + 1) }, t.at (.enqLoadCell ptr r.tail)⟩
  | .enqLoadCell ptr tail =>
    some ⟨r, wrapRetry w order t ptr tail (r.array (ringMap w order tail))⟩
  | .enqCheckHead ptr tail pair =>
    if r.head ≤ tail then some ⟨r, t.at (.enqCas ptr tail pair)⟩
    else some ⟨r, wrapNext w order t ptr tail⟩
  | .enqCas ptr tail pair =>
    let tidx := ringMap w order tail
    if ¬ spurious ∧ r.array tidx = pair then
      some ⟨r.set tidx ⟨cycle order tail ||| 0x1, ptr⟩, t.at .enqLoadThreshold⟩
    else some ⟨r, wrapRetry w order t ptr tail (r.array tidx)⟩
  | .enqLoadThreshold =>
    if r.threshold ≠ threshold4 order then some ⟨r, t.at .enqStoreThreshold⟩
    else some ⟨r, t.returns (.enqueued true)⟩
  | .enqStoreThreshold =>
    some ⟨{ r with threshold := threshold4 order }, t.returns (.enqueued true)⟩
  | .enqReloadHead ptr tail =>
    let t := { t with cursor := r.head }
    if word w (t.cursor + n) ≤ word w (tail + 1) then some ⟨r, t.returns (.enqueued false)⟩
    else some ⟨r, t.at (.enqFetchTail ptr)⟩
  | .deqLoadThreshold =>
    if r.threshold < 0 then some ⟨r, t.returns (.dequeued none)⟩
    else some ⟨r, t.at .deqFetchHead⟩
  | .deqFetchHead =>
    some ⟨{ r with head := word w (r.head + 1) }, t.at (.deqLoadEntry r.head)⟩
  | .deqLoadEntry head =>
    some ⟨r, wrapCheck w order t head (r.array (ringMap w order head)).entry⟩
  | .deqTake head =>
    let hidx := ringMap w order head
    let pair := r.array hidx
    some ⟨r.set hidx ⟨andNot pair.entry 0x1, 0⟩, t.returns (.dequeued (some pair.ptr))⟩
  | .deqCas head entry =>
    let hidx := ringMap w order head
    let pair := r.array hidx
    if ¬ spurious ∧ pair.entry = entry then
      some ⟨r.set hidx ⟨entryNew order head entry, pair.ptr⟩, t.at (.deqLoadTail head)⟩
    else some ⟨r, wrapCheck w order t head pair.entry⟩
  | .deqLoadTail head =>
    if signedDiff w r.tail (word w (head + 1)) ≤ 0 then
      some ⟨r, t.at (.catchupCas r.tail (word w (head + 1)))⟩
    else some ⟨r, t.at .deqSub⟩
  | .catchupCas tail head =>
    if ¬ spurious ∧ r.tail = tail then some ⟨{ r with tail := head }, t.at .deqSubFail⟩
    else some ⟨r, t.at .catchupHead⟩
  | .catchupHead => some ⟨r, t.at (.catchupTail r.head)⟩
  | .catchupTail head =>
    if 0 ≤ signedDiff w r.tail head then some ⟨r, t.at .deqSubFail⟩
    else some ⟨r, t.at (.catchupCas r.tail head)⟩
  | .deqSubFail =>
    some ⟨{ r with threshold := r.threshold - 1 }, t.returns (.dequeued none)⟩
  | .deqSub =>
    if r.threshold ≤ 0 then
      some ⟨{ r with threshold := r.threshold - 1 }, t.returns (.dequeued none)⟩
    else some ⟨{ r with threshold := r.threshold - 1 }, t.at .deqFetchHead⟩

/-- One step of the only thread. -/
def soloStep (w : WordSize) (order : ℕ) (s : Solo) : Act → Option Solo
  | .enqueue ptr =>
    if s.thread.pc = .idle then some ⟨s.ring, s.thread.at (.enqLoadTail ptr)⟩ else none
  | .dequeue =>
    if s.thread.pc = .idle then some ⟨s.ring, s.thread.at .deqLoadThreshold⟩ else none
  | .go => wrapStep w order s false
  | .spurious => wrapStep w order s true

/-- `tail - head`, in one word. -/
def distance (w : WordSize) (r : Ring) : ℕ := word w (r.tail + 2 ^ w.bits - r.head)

/-- A run of the enqueue from `s` may return `ok`. -/
def Returns (w : WordSize) (order : ℕ) (s : Solo) (ptr : ℕ) (ok : Bool) : Prop :=
  ∃ (s₀ : Solo) (as : List Act) (s' : Solo), soloStep w order s (.enqueue ptr) = some s₀ ∧
    (∀ a ∈ as, a = .go ∨ a = .spurious) ∧ runs (soloStep w order) s₀ as = some s' ∧
    s'.thread.pc = .idle ∧ s'.thread.ret = .enqueued ok

/-- The enqueue finds the ring full exactly when the tail is a ring ahead of the head. -/
def Exact (w : WordSize) (order : ℕ) (s : Solo) : Prop :=
  ∀ ptr, (Returns w order s ptr false ↔ cells order ≤ distance w s.ring) ∧
    (Returns w order s ptr true ↔ distance w s.ring < cells order)

/-- The sum of head and ring size wraps, the tail has not wrapped yet, and the comparison with the
cursor is passed as well. -/
def Torn (w : WordSize) (order : ℕ) (s : Solo) : Prop :=
  2 ^ w.bits ≤ s.ring.head + cells order ∧ s.ring.head ≤ s.ring.tail ∧
    word w (s.thread.cursor + cells order) ≤ s.ring.tail

/-- The ring is full, and the comparison with the cursor does not show it. -/
def Overrun (w : WordSize) (order : ℕ) (s : Solo) : Prop :=
  distance w s.ring = cells order ∧ s.ring.tail < word w (s.thread.cursor + cells order)

/-- A step, unless it is an enqueue on an overrun ring. -/
def Sound (w : WordSize) (order : ℕ) (s : Solo) (a : Act) (s' : Solo) : Prop :=
  soloStep w order s a = some s' ∧ ∀ ptr, a = .enqueue ptr → ¬ Overrun w order s

section Words

variable {w : WordSize} {order : ℕ}

theorem word_lt (w : WordSize) (x : ℕ) : word w x < 2 ^ w.bits :=
  Nat.mod_lt _ (Nat.two_pow_pos _)

theorem word_of_lt {x : ℕ} (h : x < 2 ^ w.bits) : word w x = x := Nat.mod_eq_of_lt h

/-- A sum of two words wraps once or not at all. -/
theorem word_add_cases {x y : ℕ} (hx : x < 2 ^ w.bits) (hy : y < 2 ^ w.bits) :
    x + y < 2 ^ w.bits ∧ word w (x + y) = x + y ∨
      2 ^ w.bits ≤ x + y ∧ word w (x + y) + 2 ^ w.bits = x + y := by
  rcases lt_or_ge (x + y) (2 ^ w.bits) with h | h
  · exact .inl ⟨h, word_of_lt h⟩
  · refine .inr ⟨h, ?_⟩
    rw [word, Nat.mod_eq_sub_mod h, Nat.mod_eq_of_lt (by omega)]
    omega

@[simp] theorem word_word_add (w : WordSize) (x y : ℕ) : word w (word w x + y) = word w (x + y) :=
  Nat.mod_add_mod ..

theorem Fits.cells_lt (h : Fits w order) : 8 * cells order < 2 ^ w.bits := by
  cases w with
  | w32 =>
    have h : cells order * 8 < 2 ^ 32 := h
    show 8 * cells order < 2 ^ 32
    omega
  | w64 =>
    have h : cells order * 16 < 2 ^ 64 := h
    show 8 * cells order < 2 ^ 64
    omega

theorem Fits.dvd (h : Fits w order) : cells order ∣ 2 ^ w.bits := by
  have hlt := h.cells_lt
  rw [cells_eq_two_pow] at hlt ⊢
  have hpow : 2 ^ (order + 1) < 2 ^ w.bits := by omega
  exact pow_dvd_pow 2 ((Nat.pow_lt_pow_iff_right (by omega)).mp hpow).le

theorem cycle_word (h : Fits w order) (x : ℕ) :
    cycle order (word w x) = word w (cycle order x) := by
  obtain ⟨m, hm⟩ := h.dvd
  rw [cycle_eq, cycle_eq, word, word, hm, Nat.mul_mod_mul_left, Nat.mod_mul_right_div_self]

theorem ringMap_word (h : Fits w order) (x : ℕ) :
    ringMap w order (word w x) = ringMap w order x := by
  have hx : word w x % cells order = x % cells order := Nat.mod_mod_of_dvd _ h.dvd
  unfold ringMap
  simp only [and_cells, Nat.shiftLeft_eq]
  rw [hx, Nat.mul_mod, hx, ← Nat.mul_mod]

/-- Differences of tickets less than half the words apart survive. -/
theorem signedDiff_word {x y : ℕ} (h₁ : x ≤ y + 2 ^ w.bits / 4) (h₂ : y ≤ x + 2 ^ w.bits / 4) :
    signedDiff w (word w x) (word w y) = x - y := by
  have hpos := Nat.two_pow_pos w.bits
  rw [signedDiff, word, word, Int.natCast_mod, Int.natCast_mod, Int.emod_sub_bmod,
    Int.sub_emod_bmod]
  apply Int.bmod_eq_of_le_mul_two <;> omega

/-- A ticket one ring back is in the same cell, one cycle earlier. -/
theorem cycle_sub {x : ℕ} (h : cells order ≤ x) :
    cycle order (x - cells order) + cells order = cycle order x := by
  have hx := cycle_add order x
  have hy := cycle_add order (x - cells order)
  rw [← Nat.mod_eq_sub_mod h] at hy
  omega

theorem cycle_cycle (x : ℕ) : cycle order (cycle order x) = cycle order x := by
  have hm := cycle_mod order x
  have he := cycle_add order (cycle order x)
  omega

theorem signedDiff_cycle (hf : Fits w order) {x : ℕ} (h : cells order ≤ x) :
    signedDiff w (cycle order (word w (x - cells order))) (cycle order (word w x)) =
      -(cells order : ℤ) := by
  have hlt := hf.cells_lt
  have hc := cycle_sub h
  rw [cycle_word hf, cycle_word hf, signedDiff_word (by omega) (by omega)]
  omega

theorem cycle_ne (hf : Fits w order) {x : ℕ} (h : cells order ≤ x) :
    cycle order (word w (x - cells order)) ≠ cycle order (word w x) := by
  intro he
  have hd := signedDiff_cycle hf h
  have hn := cells_pos order
  rw [he, signedDiff, sub_self, Int.zero_bmod] at hd
  omega

/-- A dequeue takes the entry of its own ticket. -/
theorem wrapVerdict_full (ho : 0 < order) (x : ℕ) :
    wrapVerdict w order (word w x) (cycle order (word w x) ||| 0x1) = .take ∧
      andNot (cycle order (word w x) ||| 0x1) 0x1 = cycle order (word w x) := by
  have h4 := cycle_mod_four ho (word w x)
  have h1 := and_one (cycle order (word w x))
  have hor := and_add_or (cycle order (word w x)) 1
  have h1' := and_one (cycle order (word w x) ||| 0x1)
  constructor
  · unfold wrapVerdict
    rw [if_pos (entry_stored ho (word w x)).cycle]
  · unfold andNot
    omega

section Cells

variable (ho : 0 < order) (hf : Fits w order) {x : ℕ} (hx : cells order ≤ x)
include hf hx

/-- An enqueue accepts the cell which its ticket finds free. -/
theorem wrapRetry_free (t : Thread) (ptr : ℕ) {pair : Cell}
    (hp : pair.entry = cycle order (word w (x - cells order))) :
    wrapRetry w order t ptr (word w x) pair = t.at (.enqCas ptr (word w x) pair) := by
  have hd := signedDiff_cycle hf hx
  have hn := cells_pos order
  unfold wrapRetry
  dsimp only
  rw [hp, cycle_cycle, if_pos ⟨by omega, rfl⟩]

include ho

/-- A dequeue moves the cell which its ticket finds free on to its own cycle. -/
theorem wrapVerdict_free :
    wrapVerdict w order (word w x) (cycle order (word w (x - cells order))) = .exchange ∧
      entryNew order (word w x) (cycle order (word w (x - cells order))) =
        cycle order (word w x) := by
  have hd := signedDiff_cycle hf hx
  have hn := cells_pos order
  have h4 := cycle_mod_four ho (word w (x - cells order))
  have h2 := and_two (cycle order (word w (x - cells order)))
  have hz : cycle order (word w (x - cells order)) &&& 0x2 = 0 := by omega
  have hand : andNot (cycle order (word w (x - cells order))) 0x2 =
      cycle order (word w (x - cells order)) := by
    rw [andNot, hz, Nat.sub_zero]
  constructor
  · unfold wrapVerdict
    rw [cycle_cycle, if_neg (cycle_ne hf hx), if_neg (by simp [hand]), if_pos (by omega)]
  · unfold entryNew
    rw [cycle_cycle, if_neg (by simp [hand]), hz, Nat.or_zero]

end Cells

end Words

end Libevl.RingPtr
