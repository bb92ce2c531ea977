import Libevl.RingPtrWrap

/-!
# When the words of the tickets may wrap

Between two calls the ring is described by an unbounded head ticket and the
number of entries. The enqueue finds it full by two comparisons of words, and
these are right unless the end of the ring has wrapped before the tail.
-/
namespace Libevl.RingPtr
open Transition

variable {w : WordSize} {order : ℕ}

/-- The cells of the tickets from `h` on hold `q` entries, the others are free. -/
structure Shape (w : WordSize) (order h q : ℕ) (r : Ring) : Prop where
  head : r.head = word w h
  tail : r.tail = word w (h + q)
  ge : cells order ≤ h
  le : q ≤ cells order
  full : ∀ x, h ≤ x → x < h + q →
    (r.array (ringMap w order x)).entry = cycle order (word w x) ||| 0x1
  free : ∀ x, h + q ≤ x → x < h + cells order →
    (r.array (ringMap w order x)).entry = cycle order (word w (x - cells order))
  alive : 0 < q → 0 ≤ r.threshold

/-- Both comparisons of the enqueue say that the ring is full. -/
def FoundFull (w : WordSize) (order : ℕ) (s : Solo) : Prop :=
  word w (s.thread.cursor + cells order) ≤ s.ring.tail ∧
    word w (s.ring.head + cells order) ≤ s.ring.tail

/-- The cursor after the first comparison. -/
def reload (w : WordSize) (order : ℕ) (s : Solo) : ℕ :=
  if word w (s.thread.cursor + cells order) ≤ s.ring.tail then s.ring.head else s.thread.cursor

/-- The tail ticket is drawn. -/
def Solo.drawn (w : WordSize) (s : Solo) : Ring := { s.ring with tail := word w (s.ring.tail + 1) }

/-- The pointer is in the cell of the tail ticket. -/
def Solo.stored (w : WordSize) (order : ℕ) (s : Solo) (ptr : ℕ) : Ring :=
  (s.drawn w).set (ringMap w order s.ring.tail) ⟨cycle order s.ring.tail ||| 0x1, ptr⟩

/-- Where an enqueue stands which started from `s`. -/
def Pc.stores (w : WordSize) (order : ℕ) (s : Solo) (ptr : ℕ) (r : Ring) (cursor : ℕ) : Pc → Prop
  | .enqLoadTail p => p = ptr ∧ r = s.ring ∧ cursor = s.thread.cursor
  | .enqLoadHead p v => p = ptr ∧ r = s.ring ∧ v = s.ring.tail ∧
      word w (s.thread.cursor + cells order) ≤ s.ring.tail
  | .enqFetchTail p => p = ptr ∧ r = s.ring ∧ cursor = reload w order s ∧ ¬ FoundFull w order s
  | .enqLoadCell p v => p = ptr ∧ r = s.drawn w ∧ cursor = reload w order s ∧
      ¬ FoundFull w order s ∧ v = s.ring.tail
  | .enqCas p v pair => p = ptr ∧ r = s.drawn w ∧ cursor = reload w order s ∧
      ¬ FoundFull w order s ∧ v = s.ring.tail ∧
      pair = s.ring.array (ringMap w order s.ring.tail)
  | .enqLoadThreshold | .enqStoreThreshold => r = s.stored w order ptr ∧
      cursor = reload w order s ∧ ¬ FoundFull w order s
  | _ => False

/-- What an enqueue from `s` leaves behind. -/
inductive Stored (w : WordSize) (order : ℕ) (s : Solo) (ptr : ℕ) : Solo → Prop
  | full : FoundFull w order s →
      Stored w order s ptr ⟨s.ring, ⟨.idle, s.ring.head, .enqueued false⟩⟩
  | done : ¬ FoundFull w order s →
      Stored w order s ptr ⟨{ s.stored w order ptr with threshold := threshold4 order },
        ⟨.idle, reload w order s, .enqueued true⟩⟩

/-- An enqueue from `s`. -/
structure Stores (w : WordSize) (order : ℕ) (s : Solo) (ptr : ℕ) (s' : Solo) : Prop where
  running : s'.thread.pc ≠ .idle →
    s'.thread.pc.stores w order s ptr s'.ring s'.thread.cursor
  returned : s'.thread.pc = .idle → Stored w order s ptr s'

/-- The head ticket is drawn. -/
def Solo.pulled (w : WordSize) (s : Solo) : Ring := { s.ring with head := word w (s.ring.head + 1) }

/-- The cell of the head ticket is moved on. -/
def Solo.passed (w : WordSize) (order : ℕ) (s : Solo) : Ring :=
  (s.pulled w).set (ringMap w order s.ring.head)
    ⟨cycle order s.ring.head, (s.ring.array (ringMap w order s.ring.head)).ptr⟩

/-- The pointer of the head ticket is taken. -/
def Solo.taken (w : WordSize) (order : ℕ) (s : Solo) : Ring :=
  (s.pulled w).set (ringMap w order s.ring.head) ⟨cycle order s.ring.head, 0⟩

/-- Where a dequeue stands which started from `s`, with `q` entries. -/
def Pc.pulls (w : WordSize) (order : ℕ) (s : Solo) (q : ℕ) (r : Ring) : Pc → Prop
  | .deqLoadThreshold | .deqFetchHead => r = s.ring
  | .deqLoadEntry k => k = s.ring.head ∧ r = s.pulled w
  | .deqTake k => k = s.ring.head ∧ r = s.pulled w ∧ 0 < q
  | .deqCas k e => k = s.ring.head ∧ r = s.pulled w ∧ q = 0 ∧
      e = (s.ring.array (ringMap w order s.ring.head)).entry
  | .deqLoadTail k => k = s.ring.head ∧ r = s.passed w order ∧ q = 0
  | .catchupCas tail head => tail = s.ring.tail ∧ head = word w (s.ring.head + 1) ∧
      r = s.passed w order ∧ q = 0
  | .catchupHead => r = s.passed w order ∧ q = 0
  | .catchupTail head => head = word w (s.ring.head + 1) ∧ r = s.passed w order ∧ q = 0
  | .deqSubFail => r = { s.passed w order with tail := word w (s.ring.head + 1) } ∧ q = 0
  | _ => False

/-- What a dequeue from `s` leaves behind. -/
inductive Pulled (w : WordSize) (order : ℕ) (s : Solo) (q : ℕ) : Solo → Prop
  | off : q = 0 → Pulled w order s q ⟨s.ring, s.thread.returns (.dequeued none)⟩
  | missed : q = 0 → Pulled w order s q
      ⟨{ s.passed w order with
          tail := word w (s.ring.head + 1), threshold := s.ring.threshold - 1 },
        s.thread.returns (.dequeued none)⟩
  | took (ptr : ℕ) : 0 < q →
      Pulled w order s q ⟨s.taken w order, s.thread.returns (.dequeued (some ptr))⟩

/-- A dequeue from `s`. -/
structure Pulls (w : WordSize) (order : ℕ) (s : Solo) (q : ℕ) (s' : Solo) : Prop where
  cursor : s'.thread.cursor = s.thread.cursor
  running : s'.thread.pc ≠ .idle → s'.thread.pc.pulls w order s q s'.ring
  returned : s'.thread.pc = .idle → Pulled w order s q s'

section Steps

variable {h q ptr : ℕ} {s s' : Solo}

/-- The cell of the tail ticket, unless all cells hold entries. -/
theorem Shape.at_tail (hf : Fits w order) {r : Ring} (hs : Shape w order h q r)
    (hq : q < cells order) : (r.array (ringMap w order r.tail)).entry =
      cycle order (word w (h + q - cells order)) := by
  rw [hs.tail, ringMap_word hf]
  exact hs.free (h + q) le_rfl (by omega)

/-- One step of an enqueue which finds a full ring full. -/
theorem Stores.step (hf : Fits w order) (hs : Shape w order h q s.ring)
    (hfull : q = cells order → FoundFull w order s) (hp : Stores w order s ptr s')
    (hbusy : s'.thread.pc ≠ .idle) (sp : Bool) :
    ∃ s'', wrapStep w order s' sp = some s'' ∧ Stores w order s ptr s'' ∧
      (sp = false → s''.thread.pc.rank < s'.thread.pc.rank) := by
  have hpc := hp.running hbusy
  have hrun {r : Ring} {t : Thread} (hb : t.pc ≠ .idle)
      (hp : t.pc.stores w order s ptr r t.cursor) : Stores w order s ptr ⟨r, t⟩ :=
    ⟨fun _ => hp, fun hn => absurd hn hb⟩
  have hret {s'' : Solo} (hb : s''.thread.pc = .idle) (hp : Stored w order s ptr s'') :
      Stores w order s ptr s'' :=
    ⟨fun hn => absurd hb hn, fun _ => hp⟩
  have hretry (hno : ¬ FoundFull w order s) (t : Thread) :
      wrapRetry w order t ptr s.ring.tail (s.ring.array (ringMap w order s.ring.tail)) =
        t.at (.enqCas ptr s.ring.tail (s.ring.array (ringMap w order s.ring.tail))) := by
    have hq : q < cells order := lt_of_le_of_ne hs.le fun hq => hno (hfull hq)
    have hge := hs.ge
    have hcell := hs.at_tail hf hq
    rw [hs.tail] at hcell ⊢
    exact wrapRetry_free hf (by omega) t ptr hcell
  obtain ⟨r, pc, cursor, ret⟩ := s'
  dsimp only at hpc hbusy
  cases pc <;> simp only [Pc.stores] at hpc
  case enqLoadTail p =>
    obtain ⟨rfl, rfl, rfl⟩ := hpc
    by_cases hle : word w (s.thread.cursor + cells order) ≤ s.ring.tail
    · exact ⟨_, if_pos hle, hrun (by simp [Thread.at]) ⟨rfl, rfl, rfl, hle⟩,
        fun _ => by simp [Thread.at, Pc.rank]⟩
    · exact ⟨_, if_neg hle, hrun (by simp [Thread.at])
        ⟨rfl, rfl, (if_neg hle).symm, fun hfound => hle hfound.1⟩,
        fun _ => by simp [Thread.at, Pc.rank]⟩
  case enqLoadHead p v =>
    obtain ⟨rfl, rfl, rfl, hle⟩ := hpc
    by_cases hle' : word w (s.ring.head + cells order) ≤ s.ring.tail
    · exact ⟨_, if_pos hle', hret rfl (.full ⟨hle, hle'⟩),
        fun _ => by simp [Thread.returns, Pc.rank]⟩
    · exact ⟨_, if_neg hle', hrun (by simp [Thread.at])
        ⟨rfl, rfl, (if_pos hle).symm, fun hfound => hle' hfound.2⟩,
        fun _ => by simp [Thread.at, Pc.rank]⟩
  case enqFetchTail p =>
    obtain ⟨rfl, rfl, rfl, hno⟩ := hpc
    exact ⟨_, rfl, hrun (by simp [Thread.at]) ⟨rfl, rfl, rfl, hno, rfl⟩,
      fun _ => by simp [Thread.at, Pc.rank]⟩
  case enqLoadCell p v =>
    obtain ⟨rfl, rfl, rfl, hno, rfl⟩ := hpc
    have hstep := congrArg (fun t => some (Solo.mk (s.drawn w) t))
      (hretry hno ⟨.enqLoadCell p s.ring.tail, reload w order s, ret⟩)
    exact ⟨_, hstep, hrun (by simp [Thread.at]) ⟨rfl, rfl, rfl, hno, rfl, rfl⟩,
      fun _ => by simp [Thread.at, Pc.rank]⟩
  case enqCas p v pair =>
    obtain ⟨rfl, rfl, rfl, hno, rfl, rfl⟩ := hpc
    cases sp with
    | true =>
      have hstep := congrArg (fun t => some (Solo.mk (s.drawn w) t)) (hretry hno
        ⟨.enqCas p s.ring.tail (s.ring.array (ringMap w order s.ring.tail)), reload w order s, ret⟩)
      exact ⟨_, hstep, hrun (by simp [Thread.at]) ⟨rfl, rfl, rfl, hno, rfl, rfl⟩, by simp⟩
    | false =>
      exact ⟨_, if_pos ⟨Bool.false_ne_true, rfl⟩, hrun (by simp [Thread.at]) ⟨rfl, rfl, hno⟩,
        fun _ => by simp [Thread.at, Pc.rank]⟩
  case enqLoadThreshold =>
    obtain ⟨rfl, rfl, hno⟩ := hpc
    by_cases hth : (s.stored w order ptr).threshold ≠ threshold4 order
    · exact ⟨_, if_pos hth, hrun (by simp [Thread.at]) ⟨rfl, rfl, hno⟩,
        fun _ => by simp [Thread.at, Pc.rank]⟩
    · refine ⟨_, if_neg hth, hret rfl ?_, fun _ => by simp [Thread.returns, Pc.rank]⟩
      have hdone : Stored w order s ptr _ := .done hno
      rwa [← not_not.mp hth] at hdone
  case enqStoreThreshold =>
    obtain ⟨rfl, rfl, hno⟩ := hpc
    exact ⟨_, rfl, hret rfl (.done hno), fun _ => by simp [Thread.returns, Pc.rank]⟩

/-- The cell of the head ticket, when there is no entry. -/
theorem Shape.at_head (hf : Fits w order) {r : Ring} (hs : Shape w order h 0 r) :
    (r.array (ringMap w order r.head)).entry = cycle order (word w (h - cells order)) := by
  have hn := cells_pos order
  rw [hs.head, ringMap_word hf]
  exact hs.free h le_rfl (by omega)

/-- How far a dequeue of the only thread is from its return. -/
def Pc.pullRank : Pc → ℕ
  | .deqLoadThreshold => 16
  | .deqFetchHead => 15
  | pc => pc.rank

/-- One step of a dequeue. -/
theorem Pulls.step (ho : 0 < order) (hf : Fits w order) (hs : Shape w order h q s.ring)
    (hp : Pulls w order s q s') (hbusy : s'.thread.pc ≠ .idle) (sp : Bool) :
    ∃ s'', wrapStep w order s' sp = some s'' ∧ Pulls w order s q s'' ∧
      (sp = false → s''.thread.pc.pullRank < s'.thread.pc.pullRank) := by
  have hpc := hp.running hbusy
  have hcur := hp.cursor
  have hrun {r : Ring} {t : Thread} (hc : t.cursor = s.thread.cursor) (hb : t.pc ≠ .idle)
      (hp : t.pc.pulls w order s q r) : Pulls w order s q ⟨r, t⟩ :=
    ⟨hc, fun _ => hp, fun hn => absurd hn hb⟩
  have hret {s'' : Solo} (hc : s''.thread.cursor = s.thread.cursor)
      (hb : s''.thread.pc = .idle) (hp : Pulled w order s q s'') : Pulls w order s q s'' :=
    ⟨hc, fun hn => absurd hb hn, fun _ => hp⟩
  have hcell (hq : 0 < q) : (s.ring.array (ringMap w order s.ring.head)).entry =
      cycle order s.ring.head ||| 0x1 := by
    rw [hs.head, ringMap_word hf]
    exact hs.full h le_rfl (by omega)
  have hcheck (t : Thread) :
      (q = 0 → wrapCheck w order t s.ring.head
        (s.ring.array (ringMap w order s.ring.head)).entry =
          t.at (.deqCas s.ring.head (s.ring.array (ringMap w order s.ring.head)).entry)) ∧
      (0 < q → wrapCheck w order t s.ring.head
        (s.ring.array (ringMap w order s.ring.head)).entry = t.at (.deqTake s.ring.head)) := by
    constructor
    · rintro rfl
      have hcell := hs.at_head hf
      rw [hs.head] at hcell ⊢
      rw [wrapCheck, hcell, (wrapVerdict_free ho hf hs.ge).1]
    · intro hq
      rw [wrapCheck, hcell hq, hs.head, (wrapVerdict_full ho h).1]
  have hdiff : signedDiff w s.ring.tail (word w (s.ring.head + 1)) = q - 1 := by
    have hle := hs.le
    have hlt := hf.cells_lt
    have hn := cells_pos order
    rw [hs.tail, hs.head, word_word_add, signedDiff_word (by omega) (by omega)]
    push_cast
    ring
  obtain ⟨r, pc, cursor, ret⟩ := s'
  dsimp only at hpc hbusy hcur
  subst hcur
  cases pc <;> simp only [Pc.pulls] at hpc
  case deqLoadThreshold =>
    subst hpc
    by_cases hth : s.ring.threshold < 0
    · have hq : q = 0 := by
        by_contra hq
        have halive := hs.alive (by omega)
        omega
      exact ⟨_, if_pos hth, hret rfl rfl (.off hq),
        fun _ => by simp [Thread.returns, Pc.pullRank, Pc.rank]⟩
    · exact ⟨_, if_neg hth, hrun rfl (by simp [Thread.at]) rfl,
        fun _ => by simp [Thread.at, Pc.pullRank]⟩
  case deqFetchHead =>
    subst hpc
    exact ⟨_, rfl, hrun rfl (by simp [Thread.at]) ⟨rfl, rfl⟩,
      fun _ => by simp [Thread.at, Pc.pullRank, Pc.rank]⟩
  case deqLoadEntry k =>
    obtain ⟨rfl, rfl⟩ := hpc
    rcases Nat.eq_zero_or_pos q with hq | hq
    · have hstep := congrArg (fun t => some (Solo.mk (s.pulled w) t))
        ((hcheck ⟨.deqLoadEntry s.ring.head, s.thread.cursor, ret⟩).1 hq)
      exact ⟨_, hstep, hrun rfl (by simp [Thread.at]) ⟨rfl, rfl, hq, rfl⟩,
        fun _ => by simp [Thread.at, Pc.pullRank, Pc.rank]⟩
    · have hstep := congrArg (fun t => some (Solo.mk (s.pulled w) t))
        ((hcheck ⟨.deqLoadEntry s.ring.head, s.thread.cursor, ret⟩).2 hq)
      exact ⟨_, hstep, hrun rfl (by simp [Thread.at]) ⟨rfl, rfl, hq⟩,
        fun _ => by simp [Thread.at, Pc.pullRank, Pc.rank]⟩
  case deqTake k =>
    obtain ⟨rfl, rfl, hq⟩ := hpc
    have hclear : andNot (s.ring.array (ringMap w order s.ring.head)).entry 0x1 =
        cycle order s.ring.head := by
      rw [hcell hq, hs.head, (wrapVerdict_full ho h).2]
    have hstep := congrArg (fun e => some (Solo.mk
      ((s.pulled w).set (ringMap w order s.ring.head) ⟨e, 0⟩)
      (s.thread.returns (.dequeued (some (s.ring.array (ringMap w order s.ring.head)).ptr))))) hclear
    exact ⟨_, hstep, hret rfl rfl (.took _ hq),
      fun _ => by simp [Thread.returns, Pc.pullRank, Pc.rank]⟩
  case deqCas k e =>
    obtain ⟨rfl, rfl, hq, rfl⟩ := hpc
    cases sp with
    | true =>
      have hstep := congrArg (fun t => some (Solo.mk (s.pulled w) t))
        ((hcheck ⟨.deqCas s.ring.head (s.ring.array (ringMap w order s.ring.head)).entry,
          s.thread.cursor, ret⟩).1 hq)
      exact ⟨_, hstep, hrun rfl (by simp [Thread.at]) ⟨rfl, rfl, hq, rfl⟩, by simp⟩
    | false =>
      subst hq
      have hnew : entryNew order s.ring.head
          (s.ring.array (ringMap w order s.ring.head)).entry = cycle order s.ring.head := by
        have hfree := hs.at_head hf
        rw [hs.head] at hfree ⊢
        rw [hfree, (wrapVerdict_free ho hf hs.ge).2]
      refine ⟨_, if_pos ⟨Bool.false_ne_true, rfl⟩, hrun rfl (by simp [Thread.at]) ⟨rfl, ?_, rfl⟩,
        fun _ => by simp [Thread.at, Pc.pullRank, Pc.rank]⟩
      exact congrArg (fun e => (s.pulled w).set (ringMap w order s.ring.head)
        ⟨e, (s.ring.array (ringMap w order s.ring.head)).ptr⟩) hnew
  case deqLoadTail k =>
    obtain ⟨rfl, rfl, hq⟩ := hpc
    have hneg : signedDiff w s.ring.tail (word w (s.ring.head + 1)) ≤ 0 := by omega
    exact ⟨_, if_pos hneg, hrun rfl (by simp [Thread.at]) ⟨rfl, rfl, rfl, hq⟩,
      fun _ => by simp [Thread.at, Pc.pullRank, Pc.rank]⟩
  case catchupCas tail head =>
    obtain ⟨rfl, rfl, rfl, hq⟩ := hpc
    cases sp with
    | true => exact ⟨_, rfl, hrun rfl (by simp [Thread.at]) ⟨rfl, hq⟩, by simp⟩
    | false =>
      exact ⟨_, if_pos ⟨Bool.false_ne_true, rfl⟩, hrun rfl (by simp [Thread.at]) ⟨rfl, hq⟩,
        fun _ => by simp [Thread.at, Pc.pullRank, Pc.rank]⟩
  case catchupHead =>
    obtain ⟨rfl, hq⟩ := hpc
    exact ⟨_, rfl, hrun rfl (by simp [Thread.at]) ⟨rfl, rfl, hq⟩,
      fun _ => by simp [Thread.at, Pc.pullRank, Pc.rank]⟩
  case catchupTail head =>
    obtain ⟨rfl, rfl, hq⟩ := hpc
    have hneg : ¬ 0 ≤ signedDiff w s.ring.tail (word w (s.ring.head + 1)) := by omega
    exact ⟨_, if_neg hneg, hrun rfl (by simp [Thread.at]) ⟨rfl, rfl, rfl, hq⟩,
      fun _ => by simp [Thread.at, Pc.pullRank, Pc.rank]⟩
  case deqSubFail =>
    obtain ⟨rfl, hq⟩ := hpc
    exact ⟨_, rfl, hret rfl rfl (.missed hq),
      fun _ => by simp [Thread.returns, Pc.pullRank, Pc.rank]⟩

end Steps

section Shapes

variable {h q ptr : ℕ} {s s' : Solo}

theorem ringMap_add_cells (w : WordSize) (order x : ℕ) :
    ringMap w order (x + cells order) = ringMap w order x := by
  unfold ringMap
  simp only [and_cells, Nat.shiftLeft_eq, Nat.add_mul, Nat.add_mod_right, Nat.add_mul_mod_self_left]

/-- Tickets less than a ring apart have different cells. -/
theorem set_near (hw : w.minOrder ≤ order) (r : Ring) {x y : ℕ} (c : Cell) (hne : x ≠ y)
    (hxy : x < y + cells order) (hyx : y < x + cells order) :
    (r.set (ringMap w order y) c).array (ringMap w order x) = r.array (ringMap w order x) := by
  refine Ring.set_of_ne r c fun hm => ?_
  rcases lt_or_gt_of_ne hne with hlt | hlt
  · have hle := (cells_le_of_ringMap hw hm hlt).1
    omega
  · have hle := (cells_le_of_ringMap hw hm.symm hlt).1
    omega

/-- The ring after a store. -/
theorem Shape.store (hw : w.minOrder ≤ order) (hf : Fits w order) (hs : Shape w order h q s.ring)
    (hq : q < cells order) :
    Shape w order h (q + 1) { s.stored w order ptr with threshold := threshold4 order } := by
  have htail := hs.tail
  refine ⟨hs.head, ?_, hs.ge, hq, fun x hx₁ hx₂ => ?_, fun x hx₁ hx₂ => ?_, fun _ => ?_⟩
  · show word w (s.ring.tail + 1) = _
    rw [htail, word_word_add, Nat.add_assoc]
  · show ((s.stored w order ptr).array (ringMap w order x)).entry = _
    rw [Solo.stored, htail, ringMap_word hf]
    by_cases hx : x = h + q
    · rw [hx, Ring.set_self]
    · rw [set_near hw _ _ hx (by omega) (by omega)]
      exact hs.full x hx₁ (by omega)
  · show ((s.stored w order ptr).array (ringMap w order x)).entry = _
    rw [Solo.stored, htail, ringMap_word hf, set_near hw _ _ (by omega) (by omega) (by omega)]
    exact hs.free x (by omega) hx₂
  · have hn := cells_pos order
    show 0 ≤ threshold4 order
    unfold threshold4
    omega

/-- The ring when the cell of the head ticket has moved on. -/
theorem Shape.pull (hw : w.minOrder ≤ order) (hf : Fits w order) (hs : Shape w order h q s.ring)
    (q' p tail : ℕ) (θ : ℤ) (hq : q' = q - 1) (ht : tail = word w (h + 1 + q'))
    (hθ : 0 < q' → 0 ≤ θ) :
    Shape w order (h + 1) q' { (s.pulled w).set (ringMap w order s.ring.head)
      ⟨cycle order s.ring.head, p⟩ with tail := tail, threshold := θ } := by
  have hhead := hs.head
  have hge := hs.ge
  have hle := hs.le
  refine ⟨?_, ht, by omega, by omega, fun x hx₁ hx₂ => ?_, fun x hx₁ hx₂ => ?_, hθ⟩
  · show word w (s.ring.head + 1) = _
    rw [hhead, word_word_add]
  · show (((s.pulled w).set (ringMap w order s.ring.head) _).array (ringMap w order x)).entry = _
    rw [hhead, ringMap_word hf, set_near hw _ _ (by omega) (by omega) (by omega)]
    exact hs.full x (by omega) (by omega)
  · show (((s.pulled w).set (ringMap w order s.ring.head) _).array (ringMap w order x)).entry = _
    rw [hhead, ringMap_word hf]
    by_cases hx : x = h + cells order
    · rw [hx, ringMap_add_cells, Ring.set_self, Nat.add_sub_cancel]
    · rw [set_near hw _ _ (by omega) (by omega) (by omega)]
      exact hs.free x (by omega) (by omega)

/-- Between two calls. -/
structure Rest (w : WordSize) (order h q : ℕ) (s : Solo) : Prop where
  idle : s.thread.pc = .idle
  shape : Shape w order h q s.ring

/-- Every enqueue that returns leaves a ring at rest. -/
theorem Stored.rest (hw : w.minOrder ≤ order) (hf : Fits w order) (hs : Shape w order h q s.ring)
    (hfull : q = cells order → FoundFull w order s) (hst : Stored w order s ptr s') :
    (FoundFull w order s ∧ Rest w order h q s') ∨
      (¬ FoundFull w order s ∧ Rest w order h (q + 1) s') := by
  cases hst with
  | full hfound => exact .inl ⟨hfound, rfl, hs⟩
  | done hno =>
    have hq : q < cells order := lt_of_le_of_ne hs.le fun hq => hno (hfull hq)
    exact .inr ⟨hno, rfl, hs.store hw hf hq⟩

/-- Every dequeue that returns leaves a ring at rest. -/
theorem Pulled.rest (hw : w.minOrder ≤ order) (hf : Fits w order) (hs : Shape w order h q s.ring)
    (hp : Pulled w order s q s') :
    (q = 0 ∧ Rest w order h 0 s') ∨ Rest w order (h + 1) (q - 1) s' := by
  cases hp with
  | off hq => exact .inl ⟨hq, rfl, hq ▸ hs⟩
  | missed hq =>
    refine .inr ⟨rfl, ?_⟩
    exact hs.pull hw hf (q - 1) (s.ring.array (ringMap w order s.ring.head)).ptr
      (word w (s.ring.head + 1)) (s.ring.threshold - 1) rfl
      (by rw [hs.head, word_word_add, hq]) (by omega)
  | took p hq =>
    refine .inr ⟨rfl, ?_⟩
    exact hs.pull hw hf (q - 1) 0 s.ring.tail s.ring.threshold rfl
      (by rw [hs.tail, show h + 1 + (q - 1) = h + q by omega]) fun _ => hs.alive hq

end Shapes

section Runs

variable {h q ptr : ℕ} {s s' : Solo}

/-- The tail, from the head word. -/
theorem Rest.tail_cases (hf : Fits w order) (hr : Rest w order h q s) :
    s.ring.head + q < 2 ^ w.bits ∧ s.ring.tail = s.ring.head + q ∨
      2 ^ w.bits ≤ s.ring.head + q ∧ s.ring.tail + 2 ^ w.bits = s.ring.head + q := by
  have hle := hr.shape.le
  have hlt := hf.cells_lt
  have hcases := word_add_cases (w := w) (word_lt w h) (show q < 2 ^ w.bits by omega)
  rwa [word_word_add, ← hr.shape.tail, ← hr.shape.head] at hcases

theorem Rest.head_lt (hr : Rest w order h q s) : s.ring.head < 2 ^ w.bits :=
  hr.shape.head ▸ word_lt w h

theorem Rest.distance_eq (hf : Fits w order) (hr : Rest w order h q s) :
    distance w s.ring = q := by
  have hle := hr.shape.le
  have hlt := hf.cells_lt
  have hhead := hr.head_lt
  have hq : q < 2 ^ w.bits := by omega
  unfold distance
  rcases hr.tail_cases hf with ⟨-, ht⟩ | ⟨-, ht⟩
  · rw [show s.ring.tail + 2 ^ w.bits - s.ring.head = q + 2 ^ w.bits by omega, word,
      Nat.add_mod_right, Nat.mod_eq_of_lt hq]
  · rw [show s.ring.tail + 2 ^ w.bits - s.ring.head = q by omega, word_of_lt hq]

/-- A full ring is found full unless the cursor hides it. -/
theorem Rest.found_full (hf : Fits w order) (hr : Rest w order h q s) (ho : ¬ Overrun w order s)
    (hq : q = cells order) : FoundFull w order s := by
  constructor
  · by_contra hlt
    exact ho ⟨(hr.distance_eq hf).trans hq, not_le.mp hlt⟩
  · rw [hr.shape.head, hr.shape.tail, word_word_add, hq]

/-- The comparisons are wrong when the end of the ring has wrapped and the tail has not. -/
theorem Rest.torn_iff (hf : Fits w order) (hr : Rest w order h q s) :
    Torn w order s ↔ q < cells order ∧ FoundFull w order s := by
  have hle := hr.shape.le
  have hlt := hf.cells_lt
  have hhead := hr.head_lt
  have htail := hr.tail_cases hf
  have hend := word_add_cases (w := w) hhead (show cells order < 2 ^ w.bits by omega)
  unfold Torn FoundFull
  constructor
  · rintro ⟨h₁, h₂, h₃⟩
    exact ⟨by omega, h₃, by omega⟩
  · rintro ⟨h₁, h₂, h₃⟩
    exact ⟨by omega, by omega, h₂⟩

theorem initial_rest (hf : Fits w order) :
    Rest w order (cells order) 0 (soloInitial order) := by
  have hlt := hf.cells_lt
  have hcells : cells order = word w (cells order) := (word_of_lt (by omega)).symm
  refine ⟨rfl, hcells, hcells, le_rfl, Nat.zero_le _, fun x h₁ h₂ => ?_, fun x h₁ h₂ => ?_,
    fun h => absurd h (lt_irrefl 0)⟩
  · omega
  · rw [word_of_lt (by omega), cycle_eq, Nat.div_eq_of_lt (by omega), Nat.mul_zero]
    rfl

/-- The steps inside an operation. -/
def Inner (a : Act) : Prop := a = .go ∨ a = .spurious

theorem soloStep_inner (w : WordSize) (order : ℕ) (s : Solo) {a : Act} (ha : Inner a) :
    ∃ sp, soloStep w order s a = wrapStep w order s sp ∧ (a = .go → sp = false) := by
  rcases ha with rfl | rfl
  · exact ⟨false, rfl, fun _ => rfl⟩
  · exact ⟨true, rfl, by simp⟩

theorem soloStep_idle (hidle : s.thread.pc = .idle) {a : Act} (ha : Inner a) :
    soloStep w order s a = none := by
  obtain ⟨sp, he, -⟩ := soloStep_inner w order s ha
  rw [he, wrapStep]
  simp [hidle]

/-- An enqueue returns what the two comparisons say. -/
theorem Rest.enqueue (hf : Fits w order) (hr : Rest w order h q s)
    (hfull : q = cells order → FoundFull w order s) (ptr : ℕ) :
    ∃ s₀, soloStep w order s (.enqueue ptr) = some s₀ ∧ Settles (soloStep w order) Inner .go
      (fun s' => s'.thread.pc = .idle) (Stored w order s ptr) s₀ := by
  refine ⟨_, if_pos hr.idle, ?_⟩
  refine settles_of_measure (I := Stores w order s ptr) (fun s => s.thread.pc.rank) ?_ ?_
    (.inl rfl) (fun s' hs' hidle => hs'.returned hidle) ⟨fun _ => ⟨rfl, rfl, rfl⟩, fun hn => ?_⟩
  · exact fun s' hidle a ha => soloStep_idle hidle ha
  · intro s' hs' hbusy a ha
    obtain ⟨sp, he, hgo⟩ := soloStep_inner w order s' ha
    obtain ⟨s'', h₁, h₂, h₃⟩ := hs'.step hf hr.shape hfull hbusy sp
    exact ⟨s'', he.trans h₁, h₂, fun h => h₃ (hgo h)⟩
  · simp [Thread.at] at hn

/-- A dequeue returns. -/
theorem Rest.dequeue (ho : 0 < order) (hf : Fits w order) (hr : Rest w order h q s) :
    ∃ s₀, soloStep w order s .dequeue = some s₀ ∧ Settles (soloStep w order) Inner .go
      (fun s' => s'.thread.pc = .idle)
      (fun s' => Pulled w order s q s' ∧ s'.thread.cursor = s.thread.cursor) s₀ := by
  refine ⟨_, if_pos hr.idle, ?_⟩
  refine settles_of_measure (I := Pulls w order s q) (fun s => s.thread.pc.pullRank) ?_ ?_
    (.inl rfl) (fun s' hs' hidle => ⟨hs'.returned hidle, hs'.cursor⟩)
    ⟨rfl, fun _ => rfl, fun hn => ?_⟩
  · exact fun s' hidle a ha => soloStep_idle hidle ha
  · intro s' hs' hbusy a ha
    obtain ⟨sp, he, hgo⟩ := soloStep_inner w order s' ha
    obtain ⟨s'', h₁, h₂, h₃⟩ := hs'.step ho hf hr.shape hbusy sp
    exact ⟨s'', he.trans h₁, h₂, fun h => h₃ (hgo h)⟩
  · simp [Thread.at] at hn

/-- A state of a sound run: at rest or inside an operation that started at rest. -/
inductive Stage (w : WordSize) (order : ℕ) (s' : Solo) : Prop
  | rest (h q : ℕ) : Rest w order h q s' → Stage w order s'
  | storing (s : Solo) (h q ptr : ℕ) : Shape w order h q s.ring →
      (q = cells order → FoundFull w order s) → Stores w order s ptr s' →
      s'.thread.pc ≠ .idle → Stage w order s'
  | pulling (s : Solo) (h q : ℕ) : Shape w order h q s.ring → Pulls w order s q s' →
      s'.thread.pc ≠ .idle → Stage w order s'

theorem Stage.at_rest (hs : Stage w order s) (hidle : s.thread.pc = .idle) :
    ∃ h q, Rest w order h q s := by
  cases hs with
  | rest h q hrest => exact ⟨h, q, hrest⟩
  | storing _ _ _ _ _ _ _ hbusy => exact absurd hidle hbusy
  | pulling _ _ _ _ _ hbusy => exact absurd hidle hbusy

theorem Stage.step (hw : w.minOrder ≤ order) (hf : Fits w order) {a : Act}
    (hs : Stage w order s) (hst : Sound w order s a s') : Stage w order s' := by
  have ho : 0 < order := (minOrder_pos w).trans_le hw
  obtain ⟨hstep, hguard⟩ := hst
  have hinner (ha : Inner a) : Stage w order s' := by
    obtain ⟨sp, he, -⟩ := soloStep_inner w order s ha
    cases hs with
    | rest h q hrest =>
      rw [soloStep_idle hrest.idle ha] at hstep
      exact nomatch hstep
    | storing s₀ h q ptr hshape hfull hrun hbusy =>
      obtain ⟨s'', hs'', hrun', -⟩ := hrun.step hf hshape hfull hbusy sp
      rw [← he, hstep, Option.some.injEq] at hs''
      subst hs''
      by_cases hidle : s'.thread.pc = .idle
      · rcases (hrun'.returned hidle).rest hw hf hshape hfull with ⟨-, hr⟩ | ⟨-, hr⟩
        · exact .rest _ _ hr
        · exact .rest _ _ hr
      · exact .storing s₀ h q ptr hshape hfull hrun' hidle
    | pulling s₀ h q hshape hrun hbusy =>
      obtain ⟨s'', hs'', hrun', -⟩ := hrun.step ho hf hshape hbusy sp
      rw [← he, hstep, Option.some.injEq] at hs''
      subst hs''
      by_cases hidle : s'.thread.pc = .idle
      · rcases (hrun'.returned hidle).rest hw hf hshape with ⟨-, hr⟩ | hr
        · exact .rest _ _ hr
        · exact .rest _ _ hr
      · exact .pulling s₀ h q hshape hrun' hidle
  cases a with
  | enqueue ptr =>
    simp only [soloStep] at hstep
    split_ifs at hstep with hidle
    cases hstep
    obtain ⟨h, q, hrest⟩ := hs.at_rest hidle
    refine .storing s h q ptr hrest.shape (hrest.found_full hf (hguard ptr rfl))
      ⟨fun _ => ⟨rfl, rfl, rfl⟩, fun hn => ?_⟩ ?_
    · simp [Thread.at] at hn
    · simp [Thread.at]
  | dequeue =>
    simp only [soloStep] at hstep
    split_ifs at hstep with hidle
    cases hstep
    obtain ⟨h, q, hrest⟩ := hs.at_rest hidle
    refine .pulling s h q hrest.shape ⟨rfl, fun _ => rfl, fun hn => ?_⟩ ?_
    · simp [Thread.at] at hn
    · simp [Thread.at]
  | go => exact hinner (.inl rfl)
  | spurious => exact hinner (.inr rfl)

/-- The states of all runs without an enqueue on an overrun ring. -/
def SoundlyReachable (w : WordSize) (order : ℕ) (s : Solo) : Prop :=
  Reach (Sound w order) (· = soloInitial order) s

theorem reachable_rest (hw : w.minOrder ≤ order) (hf : Fits w order)
    (hr : SoundlyReachable w order s) (hidle : s.thread.pc = .idle) :
    ∃ h q, Rest w order h q s := by
  have hs : Stage w order s := by
    refine hr.invariant ?_ fun s a s' hs hst => hs.step hw hf hst
    rintro _ rfl
    exact .rest _ _ (initial_rest hf)
  exact hs.at_rest hidle

/-- What the enqueue can return. -/
theorem Rest.returns_iff (hf : Fits w order) (hr : Rest w order h q s)
    (hfull : q = cells order → FoundFull w order s) (ptr : ℕ) (ok : Bool) :
    Returns w order s ptr ok ↔ (ok = false ↔ FoundFull w order s) := by
  obtain ⟨s₀, hs₀, hset⟩ := hr.enqueue hf hfull ptr
  have hread {s' : Solo} (hst : Stored w order s ptr s') :
      s'.thread.ret = .enqueued ok ↔ (ok = false ↔ FoundFull w order s) := by
    cases hst with
    | full hfound => cases ok <;> simp [hfound]
    | done hno => cases ok <;> simp [hno]
  constructor
  · rintro ⟨s₁, as, s', hs₁, has, hrun, hidle, hret⟩
    rw [hs₀, Option.some.injEq] at hs₁
    subst hs₁
    have hst := hset.of_done (fun s hidle => soloStep_idle hidle (.inl rfl)) has hrun hidle
    exact (hread hst).mp hret
  · intro hok
    obtain ⟨k, s', hk, hidle, hst⟩ := hset [] (by simp) s₀ rfl
    exact ⟨s₀, List.replicate k .go, s', hs₀, fun a ha => .inl (List.eq_of_mem_replicate ha), hk,
      hidle, (hread hst).mpr hok⟩

/-- A call whose steps all succeed. -/
theorem SoundlyReachable.call {s₀ : Solo} {a : Act} {k : ℕ} (hr : SoundlyReachable w order s)
    (ha : soloStep w order s a = some s₀) (ho : ¬ Overrun w order s)
    (hk : runs (soloStep w order) s₀ (List.replicate k .go) = some s') :
    SoundlyReachable w order s' := by
  have hr₀ : SoundlyReachable w order s₀ := hr.step ⟨ha, fun _ _ => ho⟩
  refine reach_of_runs (fun b hb t t' ht => ⟨ht, fun ptr hptr => ?_⟩) hr₀ hk
  rw [List.eq_of_mem_replicate hb] at hptr
  exact nomatch hptr

/-- Enqueues and dequeues in turn move the head on, and the cursor follows in steps of a ring. -/
theorem rounds (hw : w.minOrder ≤ order) (hf : Fits w order) (k : ℕ)
    (hk : cells order + k + cells order ≤ 2 ^ w.bits) :
    ∃ s, SoundlyReachable w order s ∧ Rest w order (cells order + k) 0 s ∧
      cells order ∣ s.thread.cursor ∧ s.thread.cursor ≤ cells order + k ∧
      cells order + k ≤ s.thread.cursor + cells order := by
  have ho : 0 < order := (minOrder_pos w).trans_le hw
  have hn := cells_pos order
  have h4 := cells_mod_four order ho
  have hlt := hf.cells_lt
  induction k with
  | zero =>
    exact ⟨_, .init rfl, initial_rest hf, dvd_rfl, le_rfl, Nat.le_add_right _ _⟩
  | succ k ih =>
    obtain ⟨s, hr, hrest, hdvd, hle, hge⟩ := ih (by omega)
    have hhead : s.ring.head = cells order + k := hrest.shape.head.trans (word_of_lt (by omega))
    have htail : s.ring.tail = cells order + k := hrest.shape.tail.trans (word_of_lt (by omega))
    have hcur : word w (s.thread.cursor + cells order) = s.thread.cursor + cells order :=
      word_of_lt (by omega)
    have hno : ¬ FoundFull w order s := by
      rintro ⟨-, hfound⟩
      rw [hhead, htail, word_of_lt (by omega)] at hfound
      omega
    have hnot {q : ℕ} {s : Solo} (hrest : Rest w order (cells order + k) q s)
        (hq : q < cells order) : ¬ Overrun w order s := by
      rintro ⟨hd, -⟩
      rw [hrest.distance_eq hf] at hd
      omega
    obtain ⟨s₀, hs₀, hset⟩ := hrest.enqueue hf (by omega) 0
    obtain ⟨m, s₁, hm, -, hst⟩ := hset [] (by simp) s₀ rfl
    have hr₁ := hr.call hs₀ (hnot hrest hn) hm
    have hrest₁ : Rest w order (cells order + k) 1 s₁ := by
      rcases hst.rest hw hf hrest.shape (by omega) with ⟨hfound, -⟩ | ⟨-, hrest₁⟩
      · exact absurd hfound hno
      · exact hrest₁
    have hcur₁ : s₁.thread.cursor = reload w order s := by
      cases hst with
      | full hfound => exact absurd hfound hno
      | done _ => rfl
    obtain ⟨s₂, hs₂, hset₂⟩ := hrest₁.dequeue ho hf
    obtain ⟨m', s₃, hm', -, hp, hcur₃⟩ := hset₂ [] (by simp) s₂ rfl
    have hr₃ := hr₁.call hs₂ (hnot hrest₁ (by omega)) hm'
    have hrest₃ : Rest w order (cells order + k + 1) 0 s₃ := by
      rcases hp.rest hw hf hrest₁.shape with ⟨hq, -⟩ | hrest₃
      · omega
      · exact hrest₃
    refine ⟨s₃, hr₃, hrest₃, ?_⟩
    rw [hcur₃, hcur₁, reload, hcur, hhead, htail]
    split_ifs with hreach
    · have he : cells order + k = s.thread.cursor + cells order := by omega
      refine ⟨?_, by omega, by omega⟩
      exact he ▸ Nat.dvd_add hdvd (Nat.dvd_refl _)
    · exact ⟨hdvd, by omega, by omega⟩

/-- On every word size the ring comes to be torn, with no entry in it. -/
theorem exists_torn (hw : w.minOrder ≤ order) (hf : Fits w order) :
    ∃ s, SoundlyReachable w order s ∧ Rest w order (2 ^ w.bits - cells order) 0 s ∧
      Torn w order s := by
  have hn := cells_pos order
  have hlt := hf.cells_lt
  obtain ⟨s, hr, hrest, hdvd, hle, hge⟩ := rounds hw hf (2 ^ w.bits - 2 * cells order) (by omega)
  have hh : cells order + (2 ^ w.bits - 2 * cells order) = 2 ^ w.bits - cells order := by omega
  rw [hh] at hrest hle hge
  refine ⟨s, hr, hrest, ?_⟩
  have hhead := hrest.shape.head.trans (word_of_lt (by omega))
  have htail := hrest.shape.tail.trans (word_of_lt (by omega))
  refine ⟨by omega, by omega, ?_⟩
  obtain ⟨a, ha⟩ := hdvd
  obtain ⟨m, hm⟩ := hf.dvd
  have hstep : s.thread.cursor + cells order = cells order * (a + 1) := by
    rw [ha, Nat.mul_add, Nat.mul_one]
  rcases Nat.lt_or_ge (a + 1) m with hlast | hlast
  · have hle₂ := Nat.mul_le_mul_left (cells order) (Nat.succ_le_of_lt hlast)
    rw [← hm, Nat.succ_eq_add_one, Nat.mul_add, ← hstep, Nat.mul_one] at hle₂
    rw [word_of_lt (by omega)]
    omega
  · have hge₂ := Nat.mul_le_mul_left (cells order) hlast
    rw [← hm, ← hstep] at hge₂
    rw [show s.thread.cursor + cells order = 2 ^ w.bits by omega, word, Nat.mod_self]
    exact Nat.zero_le _

/-- In a run of a single thread which starts no enqueue on an overrun ring, and in a state which
is not overrun, the enqueue is exact just when the end of the ring is not torn from the tail. -/
theorem exact_iff (hw : w.minOrder ≤ order) (hf : Fits w order) (hr : SoundlyReachable w order s)
    (hidle : s.thread.pc = .idle) (ho : ¬ Overrun w order s) :
    Exact w order s ↔ ¬ Torn w order s := by
  obtain ⟨h, q, hrest⟩ := reachable_rest hw hf hr hidle
  have hfull := hrest.found_full hf ho
  have hle := hrest.shape.le
  unfold Exact
  simp only [hrest.returns_iff hf hfull, hrest.distance_eq hf, hrest.torn_iff hf]
  constructor
  · rintro h ⟨hq, hfound⟩
    have hcells := (h 0).1.mp (by simp [hfound])
    omega
  · intro hno ptr
    by_cases hq : q = cells order
    · simp [hfull hq, hq]
    · have hnot : ¬ FoundFull w order s := fun hfound => hno ⟨by omega, hfound⟩
      have hlt : q < cells order := by omega
      simp [hnot, hlt]

/-- With 32 bits, a ring that is one step from the end is exact, and a torn one is not. -/
theorem exact_iff_wrap :
    (∃ s, SoundlyReachable .w32 4 s ∧ s.ring.head = 2 ^ 32 - 33 ∧ Exact .w32 4 s) ∧
      ∃ s, SoundlyReachable .w32 4 s ∧ s.ring.head = 2 ^ 32 - 32 ∧ ¬ Exact .w32 4 s := by
  have hf : Fits .w32 4 := by
    unfold Fits
    decide
  have hn : cells 4 = 32 := rfl
  have hbits : WordSize.w32.bits = 32 := rfl
  have hover {h : ℕ} {s : Solo} (hrest : Rest .w32 4 h 0 s) : ¬ Overrun .w32 4 s := by
    rintro ⟨hd, -⟩
    rw [hrest.distance_eq hf] at hd
    cases hd
  constructor
  · obtain ⟨s, hr, hrest, -⟩ := rounds (by decide) hf (2 ^ 32 - 65) (by decide)
    have hhead : s.ring.head = 2 ^ 32 - 33 := hrest.shape.head
    refine ⟨s, hr, hhead, (exact_iff (by decide) hf hr hrest.idle (hover hrest)).mpr ?_⟩
    rintro ⟨htorn, -⟩
    rw [hhead, hn, hbits] at htorn
    omega
  · obtain ⟨s, hr, hrest, htorn⟩ := exists_torn (by decide) hf
    exact ⟨s, hr, hrest.shape.head, fun hexact =>
      (exact_iff (by decide) hf hr hrest.idle (hover hrest)).mp hexact htorn⟩

/-- An empty ring which the enqueue finds full. -/
theorem not_exact_torn : ∃ s, SoundlyReachable .w32 4 s ∧ s.thread.pc = .idle ∧
    s.ring.tail = s.ring.head ∧ ¬ Exact .w32 4 s := by
  have hf : Fits .w32 4 := by
    unfold Fits
    decide
  obtain ⟨s, hr, hrest, htorn⟩ := exists_torn (by decide) hf
  obtain ⟨hlt, hfound⟩ := (hrest.torn_iff hf).mp htorn
  refine ⟨s, hr, hrest.idle, hrest.shape.tail.trans hrest.shape.head.symm, fun hexact => ?_⟩
  have hret := (hrest.returns_iff hf (fun _ => hfound) 0 false).mpr (by simp [hfound])
  have hcells := (hexact 0).1.mp hret
  rw [hrest.distance_eq hf] at hcells
  omega

end Runs

end Libevl.RingPtr
