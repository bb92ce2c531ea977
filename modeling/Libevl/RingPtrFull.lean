import Libevl.RingPtrAlone

/-!
# An enqueue that runs alone

The ring is full when the tail ticket is a ring ahead of the head ticket. Tail
tickets which an enqueue drew and gave up count as entries there, until the head
has passed them.
-/
namespace Libevl.RingPtr
open Transition

variable {ι : Type*} [DecidableEq ι] {w : WordSize} {order : ℕ}

/-- The ring after a store at the tail. -/
def Ring.push (w : WordSize) (order : ℕ) (r : Ring) (ptr : ℕ) : Ring :=
  Ring.set { r with tail := r.tail + 1 } (ringMap w order r.tail) ⟨cycle order r.tail ||| 0x1, ptr⟩

/-- The trace after a store at the tail. -/
def State.pushed (s : State ι) (ptr : ℕ) : Trace :=
  { s.trace with stored := (s.ring.tail, ptr) :: s.trace.stored }

/-- The enqueue has its ticket and the ring is otherwise as it was. -/
structure Holds (order : ℕ) (s : State ι) (ptr p v : ℕ) (r : Ring) (g : Trace) : Prop where
  ptr : p = ptr
  ticket : v = s.ring.tail
  ring : r = { s.ring with tail := s.ring.tail + 1 }
  trace : g = s.trace
  room : s.ring.tail < s.ring.head + cells order

/-- Where a lone enqueue stands. -/
def Pc.pushes (w : WordSize) (order : ℕ) (s : State ι) (ptr : ℕ) (r : Ring) (g : Trace) : Pc → Prop
  | .enqLoadTail p => p = ptr ∧ r = s.ring ∧ g = s.trace
  | .enqLoadHead p v => p = ptr ∧ r = s.ring ∧ g = s.trace ∧ v = s.ring.tail
  | .enqFetchTail p => p = ptr ∧ r = s.ring ∧ g = s.trace ∧ s.ring.tail < s.ring.head + cells order
  | .enqLoadCell p v => Holds order s ptr p v r g
  | .enqCheckHead p v pair | .enqCas p v pair => Holds order s ptr p v r g ∧
      pair = s.ring.array (ringMap w order s.ring.tail)
  | .enqLoadThreshold | .enqStoreThreshold => r = s.ring.push w order ptr ∧ g = s.pushed ptr ∧
      s.ring.tail < s.ring.head + cells order
  | _ => False

/-- What a lone enqueue leaves behind. -/
inductive Pushed (w : WordSize) (order : ℕ) (s : State ι) (ptr : ℕ) (r : Ring) (g : Trace) :
    Ret → Prop
  | stored : s.ring.tail < s.ring.head + cells order →
      r = { s.ring.push w order ptr with threshold := threshold4 order } → g = s.pushed ptr →
      Pushed w order s ptr r g (.enqueued true)
  | full : s.ring.head + cells order ≤ s.ring.tail → r = s.ring → g = s.trace →
      Pushed w order s ptr r g (.enqueued false)

/-- A lone enqueue from `s`. -/
structure Pushes (w : WordSize) (order : ℕ) (s : State ι) (ptr : ℕ) (r : Ring) (t : Thread)
    (g : Trace) : Prop where
  running : t.pc ≠ .idle → t.pc.pushes w order s ptr r g
  returned : t.pc = .idle → Pushed w order s ptr r g t.ret

omit [DecidableEq ι] in
/-- The cell at the tail of a ring that is not full is free and of an older cycle. -/
theorem free_at_tail (hw : w.minOrder ≤ order) {s : State ι} (hi : Inv w order s)
    (hc : Caught order s) (hq : Quiescent s) (hroom : s.ring.tail < s.ring.head + cells order) :
    let e := (s.ring.array (ringMap w order s.ring.tail)).entry
    cycle order e < cycle order s.ring.tail ∧ (e = cycle order e ∨ e = cycle order e ||| 0x2) := by
  intro e
  have hpos : 0 < order := (minOrder_pos w).trans_le hw
  have hle := hc.head_le_tail hi hq
  have hfree : ¬ occupied e := by
    intro hocc
    obtain ⟨x, hx, hxt, hm, -⟩ := hi.core.busy _ hocc
    have hx₁ := (hc.ahead hi hq hx).mp hxt
    have hx₂ := (cells_le_of_ringMap hw hm (hi.core.stored_range x hx).2).1
    omega
  refine ⟨?_, entry_free hpos (hi.core.low _) hfree⟩
  rcases Nat.eq_zero_or_pos (cycle order e) with hz | hcy
  · rw [hz]
    exact cycle_pos hi.core.tail_ge
  · obtain ⟨k, hk, hm, hck⟩ := hi.core.idle _ hfree hcy
    have hlt := (hi.core.gone_range k hk).2
    exact hck ▸ (cells_le_of_ringMap hw hm (hlt.trans_le hle)).2

section Push

variable {s s' : State ι} {i : ι} {ptr : ℕ}

omit [DecidableEq ι] in
/-- The test on the cell at the tail. -/
theorem Pushes.retry (hw : w.minOrder ≤ order) (hi : Inv w order s) (hc : Caught order s)
    (hq : Quiescent s) {p v : ℕ} {r : Ring} {g : Trace} (t : Thread)
    (h : Holds order s ptr p v r g) :
    ((enqRetry order t p v (s.ring.array (ringMap w order s.ring.tail))).pc.pushes
      w order s ptr r g) ∧
    (enqRetry order t p v (s.ring.array (ringMap w order s.ring.tail))).pc ≠ .idle ∧
    (enqRetry order t p v (s.ring.array (ringMap w order s.ring.tail))).pc.rank < 6 := by
  obtain ⟨hlt, he⟩ := free_at_tail hw hi hc hq h.room
  have hv := h.ticket
  subst hv
  unfold enqRetry
  dsimp only
  rcases he with he | he
  · rw [if_pos ⟨hlt, he⟩]
    exact ⟨⟨h, rfl⟩, by simp [Thread.at], by simp [Thread.at, Pc.rank]⟩
  · split_ifs with h₁ h₂
    · exact ⟨⟨h, rfl⟩, by simp [Thread.at], by simp [Thread.at, Pc.rank]⟩
    · exact ⟨⟨h, rfl⟩, by simp [Thread.at], by simp [Thread.at, Pc.rank]⟩
    · exact absurd ⟨hlt, he⟩ h₂

omit [DecidableEq ι] in
/-- One step of a lone enqueue. -/
theorem Pushes.step (hw : w.minOrder ≤ order) (hi : Inv w order s) (hc : Caught order s)
    (hq : Quiescent s) (hc' : Caught order s')
    (h : Pushes w order s ptr s'.ring (s'.thread i) s'.trace) (hbusy : (s'.thread i).pc ≠ .idle)
    (sp : Bool) :
    ∃ e, threadStep w order s'.ring (s'.thread i) s'.trace sp = some e ∧
      Pushes w order s ptr e.ring e.thread e.trace ∧
      (sp = false → lag 0 e.ring e.thread.pc < lag 0 s'.ring (s'.thread i).pc) := by
  have hpc := h.running hbusy
  have hcur := hc'.cursor i
  have hle := hc.head_le_tail hi hq
  have hlag {r r' : Ring} {pc pc' : Pc} (hlt : pc'.rank < pc.rank) :
      lag 0 r' pc' < lag 0 r pc := by
    simpa [lag] using hlt
  have hrun {r : Ring} {t : Thread} {g : Trace} (hb : t.pc ≠ .idle)
      (hp : t.pc.pushes w order s ptr r g) : Pushes w order s ptr r t g :=
    ⟨fun _ => hp, fun hn => absurd hn hb⟩
  have hret {r : Ring} {t : Thread} {g : Trace} (hb : t.pc = .idle)
      (hp : Pushed w order s ptr r g t.ret) : Pushes w order s ptr r t g :=
    ⟨fun hn => absurd hb hn, fun _ => hp⟩
  generalize ht : s'.thread i = t at *
  generalize hr : s'.ring = r at *
  generalize hg : s'.trace = g at *
  obtain ⟨pc, cursor, ret⟩ := t
  dsimp only at hpc hbusy hcur
  cases pc <;> simp only [Pc.pushes] at hpc
  case enqLoadTail p =>
    obtain ⟨rfl, rfl, rfl⟩ := hpc
    by_cases hfull : cursor + cells order ≤ s.ring.tail
    · exact ⟨_, if_pos hfull, hrun (by simp [Thread.at]) ⟨rfl, rfl, rfl, rfl⟩,
        fun _ => hlag (by simp [Thread.at, Pc.rank])⟩
    · exact ⟨_, if_neg hfull, hrun (by simp [Thread.at]) ⟨rfl, rfl, rfl, by omega⟩,
        fun _ => hlag (by simp [Thread.at, Pc.rank])⟩
  case enqLoadHead p v =>
    obtain ⟨rfl, rfl, rfl, rfl⟩ := hpc
    by_cases hfull : s.ring.head + cells order ≤ s.ring.tail
    · exact ⟨_, if_pos hfull, hret rfl (.full hfull rfl rfl),
        fun _ => hlag (by simp [Thread.returns, Pc.rank])⟩
    · exact ⟨_, if_neg hfull, hrun (by simp [Thread.at]) ⟨rfl, rfl, rfl, not_le.mp hfull⟩,
        fun _ => hlag (by simp [Thread.at, Pc.rank])⟩
  case enqFetchTail p =>
    obtain ⟨rfl, rfl, rfl, hroom⟩ := hpc
    exact ⟨_, rfl, hrun (by simp [Thread.at]) ⟨rfl, rfl, rfl, rfl, hroom⟩,
      fun _ => hlag (by simp [Thread.at, Pc.rank])⟩
  case enqLoadCell p v =>
    obtain ⟨h₁, h₂, h₃⟩ := Pushes.retry hw hi hc hq ⟨.enqLoadCell p v, cursor, ret⟩ hpc
    obtain ⟨rfl, rfl, rfl, rfl, -⟩ := hpc
    exact ⟨_, rfl, hrun h₂ h₁, fun _ => hlag h₃⟩
  case enqCheckHead p v pair =>
    have hpc' := hpc
    obtain ⟨⟨rfl, rfl, rfl, rfl, -⟩, rfl⟩ := hpc
    exact ⟨_, if_pos hle, hrun (by simp [Thread.at]) hpc',
      fun _ => hlag (by simp [Thread.at, Pc.rank])⟩
  case enqCas p v pair =>
    obtain ⟨hold, rfl⟩ := hpc
    cases sp with
    | true =>
      obtain ⟨h₁, h₂, -⟩ := Pushes.retry hw hi hc hq
        ⟨.enqCas p v (s.ring.array (ringMap w order s.ring.tail)), cursor, ret⟩ hold
      obtain ⟨rfl, rfl, rfl, rfl, -⟩ := hold
      exact ⟨_, rfl, hrun h₂ h₁, by simp⟩
    | false =>
      obtain ⟨rfl, rfl, rfl, rfl, hroom⟩ := hold
      exact ⟨_, if_pos ⟨Bool.false_ne_true, rfl⟩, hrun (by simp [Thread.at]) ⟨rfl, rfl, hroom⟩,
        fun _ => hlag (by simp [Thread.at, Pc.rank])⟩
  case enqLoadThreshold =>
    obtain ⟨rfl, rfl, hroom⟩ := hpc
    by_cases hth : (s.ring.push w order ptr).threshold ≠ threshold4 order
    · exact ⟨_, if_pos hth, hrun (by simp [Thread.at]) ⟨rfl, rfl, hroom⟩,
        fun _ => hlag (by simp [Thread.at, Pc.rank])⟩
    · refine ⟨_, if_neg hth, hret rfl (.stored hroom ?_ rfl),
        fun _ => hlag (by simp [Thread.returns, Pc.rank])⟩
      rw [← not_not.mp hth]
  case enqStoreThreshold =>
    obtain ⟨rfl, rfl, hroom⟩ := hpc
    exact ⟨_, rfl, hret rfl (.stored hroom rfl rfl),
      fun _ => hlag (by simp [Thread.returns, Pc.rank])⟩

/-- An enqueue that runs alone stores exactly when the tail is less than a ring ahead of the
head. -/
theorem alone_enqueue (hw : w.minOrder ≤ order) (hr : Reachable w order s) (hq : Quiescent s)
    (i : ι) (ptr : ℕ) :
    Alone w order s i (.enqueue ptr) fun s' => Reachable w order s' ∧ Quiescent s' ∧
      Pushed w order s ptr s'.ring s'.trace (s'.thread i).ret := by
  obtain ⟨hi, hc⟩ := reachable_caught hw hr
  refine alone_of 0 (P := Pushes w order s ptr) hr hq (if_pos (hq i)) ?_ ?_ ?_
  · refine ⟨fun _ => ?_, fun hn => ?_⟩
    · simp [Thread.at, Pc.pushes]
    · simp [Thread.at] at hn
  · intro s' hr' hs' hbusy sp
    exact hs'.step hw hi hc hq (reachable_caught hw hr').2 hbusy sp
  · exact fun s' hr' hq' hs' => ⟨hr', hq', hs'.returned (hq' i)⟩

end Push

/-- The entries in the ring. -/
def outstanding (g : Trace) : List (ℕ × ℕ) := g.stored.filter (· ∉ g.taken)

/-- The tail tickets from the head on with which no enqueue stored. -/
def abandoned (s : State ι) : List ℕ :=
  (List.range' s.ring.head (s.ring.tail - s.ring.head)).filter (· ∉ s.trace.stored.map Prod.fst)

omit [DecidableEq ι] in
/-- Between head and tail every ticket has its entry or was abandoned. -/
theorem tail_eq {s : State ι} (hi : Inv w order s) (hc : Caught order s) (hq : Quiescent s) :
    s.ring.tail = s.ring.head + ((outstanding s.trace).length + (abandoned s).length) := by
  have hle := hc.head_le_tail hi hq
  have hperm : ((outstanding s.trace).map Prod.fst).Perm
      ((List.range' s.ring.head (s.ring.tail - s.ring.head)).filter
        (· ∈ s.trace.stored.map Prod.fst)) := by
    rw [List.perm_ext_iff_of_nodup]
    · intro k
      simp only [outstanding, List.mem_map, List.mem_filter, decide_eq_true_eq, List.mem_range'_1]
      constructor
      · rintro ⟨x, ⟨hx, hxt⟩, rfl⟩
        have h₁ := (hc.ahead hi hq hx).mp hxt
        have h₂ := (hi.core.stored_range x hx).2
        exact ⟨by omega, x, hx, rfl⟩
      · rintro ⟨h₁, x, hx, rfl⟩
        exact ⟨x, ⟨hx, (hc.ahead hi hq hx).mpr h₁.1⟩, rfl⟩
    · exact (List.filter_sublist.map Prod.fst).nodup hi.core.stored_nodup
    · exact (List.nodup_range' _).filter _
  have hlen := hperm.length_eq
  have hsplit := List.length_eq_length_filter_add (l := List.range' s.ring.head
    (s.ring.tail - s.ring.head)) (· ∈ s.trace.stored.map Prod.fst)
  simp only [List.length_range', List.length_map, ← decide_not] at hlen hsplit
  unfold abandoned
  omega

/-- An enqueue that runs alone returns true. -/
def Accepts (w : WordSize) (order : ℕ) (s : State ι) (i : ι) (ptr : ℕ) : Prop :=
  Alone w order s i (.enqueue ptr) fun s' => (s'.thread i).ret = .enqueued true

/-- The ring is not found full while half of its cells are unused. -/
def Roomy (w : WordSize) (order : ℕ) (s : State ι) (i : ι) : Prop :=
  (outstanding s.trace).length < 2 ^ order → ∀ ptr, Accepts w order s i ptr

theorem accepts_iff (hw : w.minOrder ≤ order) {s : State ι} (hr : Reachable w order s)
    (hq : Quiescent s) (i : ι) (ptr : ℕ) :
    Accepts w order s i ptr ↔ s.ring.tail < s.ring.head + cells order := by
  have halone := alone_enqueue hw hr hq i ptr
  constructor
  · intro h
    obtain ⟨s', ⟨-, -, hp⟩, hret⟩ := halone.unique h
    rw [hret] at hp
    cases hp with
    | stored hroom _ _ => exact hroom
  · intro hroom
    refine halone.mono ?_
    rintro s' ⟨-, -, hp⟩
    cases hret : (s'.thread i).ret with
    | none => rw [hret] at hp; cases hp
    | dequeued p => rw [hret] at hp; cases hp
    | enqueued ok =>
      rw [hret] at hp
      cases hp with
      | stored _ _ _ => rfl
      | full hfull _ _ => exact absurd hroom (not_lt.mpr hfull)

/-- Fills the ring, with 16 cells. -/
def fillRun : List (Fin 2 × Act) :=
  enqueueRun 0 1 ++ ((List.range' 2 15).map fun p =>
    ((0 : Fin 2), Act.enqueue p) :: List.replicate 5 (0, .go)).flatten

/-- A dequeue draws its ticket, an enqueue finds the cell still occupied and gives up, and the
dequeue takes its pointer. -/
def burnRun : List (Fin 2 × Act) :=
  (1, .dequeue) :: List.replicate 3 (1, .go) ++ (0, .enqueue 99) :: List.replicate 5 (0, .go) ++
    [(1, .go)]

/-- Abandoned tickets fill the ring as entries do, for any number of threads. -/
theorem roomy_iff (hw : w.minOrder ≤ order) {s : State ι} (hr : Reachable w order s)
    (hq : Quiescent s) (i : ι) :
    Roomy w order s i ↔ ((outstanding s.trace).length < 2 ^ order →
      (outstanding s.trace).length + (abandoned s).length < cells order) := by
  obtain ⟨hi, hc⟩ := reachable_caught hw hr
  have htail := tail_eq hi hc hq
  constructor
  · intro h hhalf
    have hroom := (accepts_iff hw hr hq i 0).mp (h hhalf 0)
    omega
  · intro h hhalf ptr
    have hroom := h hhalf
    exact (accepts_iff hw hr hq i ptr).mpr (by omega)

/-- With one ticket abandoned and seven entries left there is room. -/
theorem roomy_iff_burnt : ∃ s : State (Fin 2),
    runs (step .w64 3) (initial (Fin 2) 3) (fillRun ++ burnRun ++
      (List.replicate 8 ((1, .dequeue) :: List.replicate 4 (1, .go))).flatten) = some s ∧
    (outstanding s.trace).length = 7 ∧ (abandoned s).length = 1 ∧ Roomy .w64 3 s 1 := by
  obtain ⟨s, hs, hd⟩ := Option.map_eq_some_iff.mp (by decide +kernel :
    (runs (step .w64 3) (initial (Fin 2) 3) (fillRun ++ burnRun ++
        (List.replicate 8 ((1, .dequeue) :: List.replicate 4 (1, .go))).flatten)).map
      (fun s => ((s.thread 0).pc, (s.thread 1).pc, (outstanding s.trace).length,
        (abandoned s).length)) = some (.idle, .idle, 7, 1))
  simp only [Prod.mk.injEq] at hd
  obtain ⟨h₀, h₁, hlen, hburnt⟩ := hd
  have hr : Reachable .w64 3 s := reach_of_runs (fun _ _ _ _ h => h) (.init rfl) hs
  have hq : Quiescent s := Fin.forall_fin_two.mpr ⟨h₀, h₁⟩
  refine ⟨s, hs, hlen, hburnt, (roomy_iff (by decide) hr hq 1).mpr fun _ => ?_⟩
  rw [hlen, hburnt]
  decide

/-- After nine rounds the tail is a ring ahead of the head, and seven entries are left. -/
theorem not_roomy_burnt : ∃ s : State (Fin 2), Reachable .w64 3 s ∧ Quiescent s ∧
    (outstanding s.trace).length = 7 ∧ ¬ Roomy .w64 3 s 0 := by
  obtain ⟨s, hs, hd⟩ := Option.map_eq_some_iff.mp (by decide +kernel :
    (runs (step .w64 3) (initial (Fin 2) 3) (fillRun ++ (List.replicate 9 burnRun).flatten)).map
        (fun s => ((s.thread 0).pc, (s.thread 1).pc, s.ring.head, s.ring.tail,
          (outstanding s.trace).length)) = some (.idle, .idle, 25, 41, 7))
  simp only [Prod.mk.injEq] at hd
  obtain ⟨h₀, h₁, hhead, htail, hlen⟩ := hd
  have hr : Reachable .w64 3 s := reach_of_runs (fun _ _ _ _ h => h) (.init rfl) hs
  have hq : Quiescent s := Fin.forall_fin_two.mpr ⟨h₀, h₁⟩
  refine ⟨s, hr, hq, hlen, fun h => ?_⟩
  have hroom := (accepts_iff (by decide) hr hq 0 99).mp (h (by rw [hlen]; decide) 99)
  have hn : cells 3 = 16 := by decide
  omega

end Libevl.RingPtr
