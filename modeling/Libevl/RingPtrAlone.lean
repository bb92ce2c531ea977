import Libevl.RingPtrBounds
import Mathlib.Data.Finset.Max

/-!
# A dequeue that runs alone

When no operation is in progress a thread may run one from start to end, with
as many spurious failures of its weak compare-exchanges as there may be. The
dequeue walks over the tickets nobody stored, and the threshold lasts until it
has reached the first stored one.
-/
namespace Libevl.RingPtr
open Transition

variable {ι : Type*} [DecidableEq ι]

/-- No operation is in progress. -/
def Quiescent (s : State ι) : Prop := ∀ i, (s.thread i).pc = .idle

/-- The step of a thread that runs alone. -/
def lone (i : ι) (spurious : Bool) : ι × Act := (i, if spurious then .spurious else .go)

/-- The thread `i` starts an operation and runs alone: whatever compare-exchanges have failed
spuriously so far, it goes on to return in a state of `Q`. -/
def Alone (w : WordSize) (order : ℕ) (s : State ι) (i : ι) (act : Act) (Q : State ι → Prop) :
    Prop :=
  ∃ s₀, step w order s (i, act) = some s₀ ∧
    Settles (step w order) (∃ sp, · = lone i sp) (lone i false)
      (fun s' => (s'.thread i).pc = .idle) Q s₀

/-- How far a thread is from its return, within one round of its loops. -/
def Pc.rank : Pc → ℕ
  | .idle => 0
  | .deqTake _ => 1
  | .enqStoreThreshold | .deqSubFail => 2
  | .enqLoadThreshold | .catchupCas _ _ => 3
  | .enqCas _ _ _ | .catchupTail _ => 4
  | .enqCheckHead _ _ _ | .catchupHead => 5
  | .enqLoadCell _ _ => 6
  | .enqFetchTail _ => 7
  | .enqLoadHead _ _ => 8
  | .enqLoadTail _ => 9
  | .enqReloadHead _ _ | .deqFetchHead => 10
  | .deqLoadThreshold | .deqSub => 11
  | .deqLoadTail _ => 12
  | .deqCas _ _ => 13
  | .deqLoadEntry _ => 14

/-- Every round of the loop of the dequeue draws one head ticket before `lim`. -/
def lag (lim : ℕ) (r : Ring) (pc : Pc) : ℕ := 16 * (lim - r.head) + pc.rank

variable {w : WordSize} {order : ℕ}

theorem step_lone {s : State ι} {i : ι} {sp : Bool} {e : Effect}
    (h : threadStep w order s.ring (s.thread i) s.trace sp = some e) :
    step w order s (lone i sp) =
      some ⟨e.ring, Function.update s.thread i e.thread, e.trace⟩ := by
  cases sp <;> simp [step, lone, h]

theorem step_lone_idle {s : State ι} {i : ι} (h : (s.thread i).pc = .idle) (sp : Bool) :
    step w order s (lone i sp) = none := by
  cases sp <;> simp [step, lone, threadStep, h]

/-- The rule for lone runs: an assertion about the thread which every step keeps, and a measure
which falls when no compare-exchange fails spuriously. -/
theorem alone_of {s s₀ : State ι} {i : ι} {act : Act} {Q : State ι → Prop} (lim : ℕ)
    {P : Ring → Thread → Trace → Prop} (hr : Reachable w order s) (hq : Quiescent s)
    (hcall : step w order s (i, act) = some s₀) (h₀ : P s₀.ring (s₀.thread i) s₀.trace)
    (hstep : ∀ s : State ι, Reachable w order s → P s.ring (s.thread i) s.trace →
      (s.thread i).pc ≠ .idle → ∀ sp, ∃ e,
        threadStep w order s.ring (s.thread i) s.trace sp = some e ∧
          P e.ring e.thread e.trace ∧
            (sp = false → lag lim e.ring e.thread.pc < lag lim s.ring (s.thread i).pc))
    (hend : ∀ s : State ι, Reachable w order s → Quiescent s →
      P s.ring (s.thread i) s.trace → Q s) : Alone w order s i act Q := by
  have hmid : ∀ j ≠ i, (s₀.thread j).pc = .idle := by
    intro j hj
    cases act with
    | enqueue | dequeue =>
      simp only [step] at hcall
      split_ifs at hcall
      cases hcall
      simpa [hj] using hq j
    | go | spurious => simp [step, threadStep, hq i] at hcall
  refine ⟨s₀, hcall, settles_of_measure (I := fun s => Reachable w order s ∧
    (∀ j ≠ i, (s.thread j).pc = .idle) ∧ P s.ring (s.thread i) s.trace)
    (fun s => lag lim s.ring (s.thread i).pc) ?_ ?_ ⟨false, rfl⟩ ?_
    ⟨hr.step hcall, hmid, h₀⟩⟩
  · rintro s hidle _ ⟨sp, rfl⟩
    exact step_lone_idle hidle sp
  · rintro s ⟨hr, hothers, hP⟩ hbusy _ ⟨sp, rfl⟩
    obtain ⟨e, he, hP', hlag⟩ := hstep s hr hP hbusy sp
    have hs := step_lone he
    refine ⟨_, hs, ⟨hr.step hs, fun j hj => ?_, by simpa using hP'⟩, fun hgo => ?_⟩
    · simpa [hj] using hothers j hj
    · have hsp : sp = false := by
        cases sp with
        | false => rfl
        | true => simp [lone] at hgo
      simpa using hlag hsp
  · rintro s ⟨hr, hothers, hP⟩ hidle
    refine hend s hr (fun j => ?_) hP
    by_cases hj : j = i
    · exact hj ▸ hidle
    · exact hothers j hj

/-- A lone run has one outcome. -/
theorem Alone.unique {s : State ι} {i : ι} {act : Act} {Q Q' : State ι → Prop}
    (h : Alone w order s i act Q) (h' : Alone w order s i act Q') : ∃ s', Q s' ∧ Q' s' := by
  obtain ⟨s₀, hs₀, hrun⟩ := h
  obtain ⟨s₁, hs₁, hrun'⟩ := h'
  rw [hs₀, Option.some.injEq] at hs₁
  subst hs₁
  exact hrun.unique ⟨false, rfl⟩ (fun s hidle => step_lone_idle hidle false) hrun'

theorem Alone.mono {s : State ι} {i : ι} {act : Act} {Q Q' : State ι → Prop}
    (h : Alone w order s i act Q) (hQ : ∀ s, Q s → Q' s) : Alone w order s i act Q' := by
  obtain ⟨s₀, hs₀, hrun⟩ := h
  exact ⟨s₀, hs₀, hrun.mono hQ⟩

section Quiet

variable {s : State ι}

omit [DecidableEq ι] in
/-- When nothing is in progress every head ticket has been used up. -/
theorem Caught.gone (hc : Caught order s) (hq : Quiescent s) {h : ℕ} (hge : cells order ≤ h)
    (hlt : h < s.ring.head) : s.trace.gone h := by
  rcases hc.spent h hge hlt with hg | ⟨i, hi⟩
  · exact hg
  · simp [hq i, Pc.headTicket] at hi

omit [DecidableEq ι] in
/-- When nothing is in progress the tail has caught up. -/
theorem Caught.head_le_tail (hi : Inv w order s) (hc : Caught order s) (hq : Quiescent s) :
    s.ring.head ≤ s.ring.tail := by
  have hn := cells_pos order
  have hge := hi.core.head_ge
  rcases hc.covered (s.ring.head - 1) (by omega) with h | ⟨i, h⟩
  · omega
  · simp [hq i, Pc.covers] at h

omit [DecidableEq ι] in
/-- When nothing is in progress the entries which are left are ahead of the head. -/
theorem Caught.ahead (hi : Inv w order s) (hc : Caught order s) (hq : Quiescent s) {x : ℕ × ℕ}
    (hx : x ∈ s.trace.stored) : x ∉ s.trace.taken ↔ s.ring.head ≤ x.1 := by
  constructor
  · intro hxt
    by_contra hlt
    rcases hc.gone hq (hi.core.stored_range x hx).1 (not_le.mp hlt) with hg | hg
    · obtain ⟨y, hy, hyx⟩ := List.mem_map.mp hg
      have hxy : y = x := hi.core.stored_inj (hi.core.taken_stored y hy) hx hyx
      exact hxt (hxy ▸ hy)
    · exact hi.core.skipped_stored x.1 hg (List.mem_map_of_mem hx)
  · intro hge hxt
    exact absurd (hi.core.gone_range x.1 (.inl (List.mem_map_of_mem hxt))).2 (not_lt.mpr hge)

end Quiet

/-- `x` is the entry a dequeue has to take next. -/
structure First (g : Trace) (x : ℕ × ℕ) : Prop where
  stored : x ∈ g.stored
  left : x ∉ g.taken
  least : ∀ y ∈ g.stored, y ∉ g.taken → x.1 ≤ y.1

/-- Where a lone dequeue stands which is bound for the ticket `lim`. -/
def Pc.seeks (w : WordSize) (order : ℕ) (r : Ring) (lim : ℕ) : Pc → Prop
  | .deqLoadThreshold | .deqFetchHead => r.head ≤ lim ∧ (lim : ℤ) ≤ r.threshold + r.head
  | .deqLoadEntry h => h ≤ lim ∧ r.head = h + 1 ∧ (lim : ℤ) ≤ r.threshold + h
  | .deqCas h e => h < lim ∧ r.head = h + 1 ∧ (lim : ℤ) ≤ r.threshold + h ∧
      e = (r.array (ringMap w order h)).entry
  | .deqTake h => h = lim ∧ r.head = h + 1
  | .deqLoadTail h => h < lim ∧ r.head = h + 1 ∧ (lim : ℤ) ≤ r.threshold + h
  | .deqSub => r.head ≤ lim ∧ (lim : ℤ) < r.threshold + r.head
  | _ => False

/-- A lone dequeue from `s` on its way to `x`. -/
structure Seeks (w : WordSize) (order : ℕ) (s : State ι) (x : ℕ × ℕ) (r : Ring) (t : Thread)
    (g : Trace) : Prop where
  tail : r.tail = s.ring.tail
  stored : g.stored = s.trace.stored
  running : t.pc ≠ .idle → t.pc.seeks w order r x.1 ∧ g.taken = s.trace.taken
  returned : t.pc = .idle → t.ret = .dequeued (some x.2) ∧ g.taken = x :: s.trace.taken ∧
    r.head = x.1 + 1

section Seek

variable {s : State ι} {x : ℕ × ℕ} {r : Ring} {t : Thread} {g : Trace}

omit [DecidableEq ι] in
theorem Seeks.run {r' : Ring} {t' : Thread} {g' : Trace} (h : Seeks w order s x r t g)
    (hbusy : t.pc ≠ .idle) (ht : r'.tail = r.tail) (hs : g'.stored = g.stored)
    (hk : g'.taken = g.taken) (hbusy' : t'.pc ≠ .idle) (hpc : t'.pc.seeks w order r' x.1) :
    Seeks w order s x r' t' g' where
  tail := ht.trans h.tail
  stored := hs.trans h.stored
  running := fun _ => ⟨hpc, hk.trans (h.running hbusy).2⟩
  returned := fun hn => absurd hn hbusy'

omit [DecidableEq ι] in
/-- The loop of the dequeue takes the first entry and gives every ticket before it up. -/
theorem Seeks.check (hw : w.minOrder ≤ order) (hc : Core w order r g) (hx : First g x)
    (h : Seeks w order s x r t g) (hbusy : t.pc ≠ .idle) {k : ℕ}
    (hk : cells order ≤ k ∧ ¬ g.gone k) (hle : k ≤ x.1) (hh : r.head = k + 1)
    (hth : (x.1 : ℤ) ≤ r.threshold + k) :
    Seeks w order s x (deqCheck order r t g k (r.array (ringMap w order k)).entry).ring
        (deqCheck order r t g k (r.array (ringMap w order k)).entry).thread
        (deqCheck order r t g k (r.array (ringMap w order k)).entry).trace ∧
      (deqCheck order r t g k (r.array (ringMap w order k)).entry).ring = r ∧
      (deqCheck order r t g k (r.array (ringMap w order k)).entry).thread.pc.rank < 14 := by
  have hpos : 0 < order := (minOrder_pos w).trans_le hw
  have hlt (hne : cycle order (r.array (ringMap w order k)).entry ≠ cycle order k) :
      k < x.1 := by
    rcases hle.lt_or_eq with hlt | rfl
    · exact hlt
    · exact absurd (hc.kept x hx.stored hx.left).cycle hne
  unfold deqCheck
  rcases deqVerdict_cases hpos (hc.low (ringMap w order k)) k with
    ⟨hv, he⟩ | ⟨hv, hne, -⟩ | ⟨hv, hcy, -⟩ <;> rw [hv]
  · obtain ⟨y, hy, rfl, hyt, -⟩ := hc.kept_of_mem (hc.stored_of_cycle hw hk.1 hk.2 he) hk.2
    have hxy := hx.least y hy hyt
    exact ⟨h.run hbusy rfl rfl rfl (by simp [Thread.at]) ⟨by omega, hh⟩, rfl,
      by simp [Thread.at, Pc.rank]⟩
  · exact ⟨h.run hbusy rfl rfl rfl (by simp [Thread.at]) ⟨hlt hne, hh, hth⟩, rfl,
      by simp [Thread.at, Pc.rank]⟩
  · exact ⟨h.run hbusy rfl rfl rfl (by simp [Thread.at]) ⟨hlt hcy.ne, hh, hth, rfl⟩, rfl,
      by simp [Thread.at, Pc.rank]⟩

omit [DecidableEq ι] in
/-- One step of a lone dequeue. -/
theorem Seeks.step (hw : w.minOrder ≤ order) {s' : State ι} {i : ι} (hi : Inv w order s')
    (hx : First s.trace x) (h : Seeks w order s x s'.ring (s'.thread i) s'.trace)
    (hbusy : (s'.thread i).pc ≠ .idle) (sp : Bool) :
    ∃ e, threadStep w order s'.ring (s'.thread i) s'.trace sp = some e ∧
      Seeks w order s x e.ring e.thread e.trace ∧
      (sp = false → lag (x.1 + 1) e.ring e.thread.pc < lag (x.1 + 1) s'.ring (s'.thread i).pc) := by
  obtain ⟨hpc, htk⟩ := h.running hbusy
  have hx' : First s'.trace x :=
    ⟨h.stored ▸ hx.stored, htk ▸ hx.left, by rw [h.stored, htk]; exact hx.least⟩
  have hrange := hi.head.range i
  generalize ht : s'.thread i = t at *
  obtain ⟨pc, cursor, ret⟩ := t
  dsimp only at hpc hbusy hrange
  cases pc <;> simp only [Pc.seeks] at hpc
  case deqLoadThreshold =>
    refine ⟨_, if_neg ?_, h.run hbusy rfl rfl rfl (by simp [Thread.at]) hpc, fun _ => ?_⟩
    · omega
    · simp [lag, Thread.at, Pc.rank]
  case deqFetchHead =>
    refine ⟨_, rfl, h.run hbusy rfl rfl rfl (by simp [Thread.at]) ⟨hpc.1, rfl, hpc.2⟩, fun _ => ?_⟩
    simp only [lag, Thread.at, Pc.rank]
    omega
  case deqLoadEntry k =>
    obtain ⟨h₁, h₂, h₃⟩ := hpc
    obtain ⟨hge, -, hgone⟩ := hrange k rfl
    obtain ⟨hs, hring, hrank⟩ := h.check hw hi.core hx' hbusy ⟨hge, hgone⟩ h₁ h₂ h₃
    refine ⟨_, rfl, hs, fun _ => ?_⟩
    rw [lag, lag, hring]
    exact Nat.add_lt_add_left hrank _
  case deqTake k =>
    obtain ⟨rfl, h₂⟩ := hpc
    have hptr := (hi.core.kept x hx'.stored hx'.left).ptr
    refine ⟨_, rfl, ⟨h.tail, h.stored, fun hn => absurd rfl hn, fun _ => ⟨?_, ?_, h₂⟩⟩, fun _ => ?_⟩
    · exact congrArg (fun p => Ret.dequeued (some p)) hptr
    · show _ :: _ = _
      rw [hptr, htk]
    · exact Nat.add_lt_add_left (show 0 < 1 by omega) _
  case deqCas k e =>
    obtain ⟨h₁, h₂, h₃, rfl⟩ := hpc
    obtain ⟨hge, -, hgone⟩ := hrange k rfl
    cases sp with
    | true =>
      obtain ⟨hs, -, -⟩ := h.check hw hi.core hx' hbusy ⟨hge, hgone⟩ h₁.le h₂ h₃
      exact ⟨_, rfl, hs, by simp⟩
    | false =>
      refine ⟨_, if_pos (by simp), ?_, fun _ => ?_⟩
      · exact h.run hbusy rfl rfl rfl (by simp [Thread.at]) ⟨h₁, h₂, h₃⟩
      · exact Nat.add_lt_add_left (show 12 < 13 by omega) _
  case deqLoadTail k =>
    obtain ⟨h₁, h₂, h₃⟩ := hpc
    have hlt := (hi.core.stored_range x hx'.stored).2
    have hhead : s'.ring.head ≤ x.1 := by omega
    refine ⟨_, if_neg (by omega), ?_, fun _ => ?_⟩
    · refine h.run hbusy rfl rfl rfl (by simp [Thread.at]) ⟨hhead, ?_⟩
      rw [h₂]
      push_cast
      omega
    · exact Nat.add_lt_add_left (show 11 < 12 by omega) _
  case deqSub =>
    refine ⟨_, if_neg (by omega), ?_, fun _ => ?_⟩
    · refine h.run hbusy rfl rfl rfl (by simp [Thread.at]) ⟨hpc.1, ?_⟩
      dsimp only
      omega
    · exact Nat.add_lt_add_left (show 10 < 11 by omega) _

end Seek

omit [DecidableEq ι] in
/-- Some stored entry is left when fewer have been taken. -/
theorem exists_first_left {s : State ι} (hi : Inv w order s)
    (h : s.trace.taken.length < s.trace.stored.length) : ∃ x, First s.trace x := by
  have hleft : ∃ x ∈ s.trace.stored, x ∉ s.trace.taken := by
    by_contra hall
    push Not at hall
    have hsub : s.trace.stored ⊆ s.trace.taken := fun x hx => hall x hx
    have hle := (List.subperm_of_subset hi.core.stored_nodup.of_map hsub).length_le
    omega
  obtain ⟨x, hx, hxt⟩ := hleft
  have hmem (y : ℕ × ℕ) : y ∈ (s.trace.stored.filter (· ∉ s.trace.taken)).toFinset ↔
      y ∈ s.trace.stored ∧ y ∉ s.trace.taken := by
    simp
  obtain ⟨y, hy, hmin⟩ := Finset.exists_min_image _ Prod.fst ⟨x, (hmem x).mpr ⟨hx, hxt⟩⟩
  obtain ⟨hys, hyt⟩ := (hmem y).mp hy
  exact ⟨y, hys, hyt, fun z hz hzt => hmin z ((hmem z).mpr ⟨hz, hzt⟩)⟩

variable [Fintype ι]

/-- A dequeue that runs alone returns the first entry that is left. -/
theorem alone_dequeue (hw : w.minOrder ≤ order) (hcard : Fintype.card ι ≤ 2 ^ order)
    {s : State ι} (hr : Reachable w order s) (hq : Quiescent s) (i : ι) {x : ℕ × ℕ}
    (hx : First s.trace x) :
    Alone w order s i .dequeue fun s' => Reachable w order s' ∧ Quiescent s' ∧
      Seeks w order s x s'.ring (s'.thread i) s'.trace ∧ (s'.thread i).pc = .idle := by
  obtain ⟨hi, hc⟩ := reachable_caught hw hr
  have hp := reachable_paced hw hcard hr
  have hahead := (hc.ahead hi hq hx.stored).mp hx.left
  have hquota : (x.1 : ℤ) ≤ s.ring.threshold + s.ring.head := by
    rcases hp.quota with ⟨j, hj⟩ | hall
    · simp [hq j, Pc.settling] at hj
    · have := hall x hx.stored hahead
      omega
  refine alone_of (x.1 + 1) (P := Seeks w order s x) hr hq (if_pos (hq i)) ?_ ?_ ?_
  · refine ⟨rfl, rfl, fun _ => ⟨?_, rfl⟩, fun hn => ?_⟩
    · simpa [Thread.at, Pc.seeks] using ⟨hahead, hquota⟩
    · simp [Thread.at] at hn
  · intro s' hr' hs' hbusy sp
    exact hs'.step hw (reachable_inv hw hr') hx hbusy sp
  · exact fun s' hr' hq' hs' => ⟨hr', hq', hs', hq' i⟩

/-- With at most as many threads as half the cells, the ring is not found empty while it holds an
entry: a dequeue that runs alone returns the pointer of the smallest ticket which is left. -/
theorem dequeue_finds_first (hw : w.minOrder ≤ order) (hcard : Fintype.card ι ≤ 2 ^ order)
    {s : State ι} (hr : Reachable w order s) (hq : Quiescent s)
    (hmore : s.trace.taken.length < s.trace.stored.length) (i : ι) :
    ∃ x, First s.trace x ∧ Alone w order s i .dequeue fun s' =>
      (s'.thread i).ret = .dequeued (some x.2) ∧ s'.trace.taken = x :: s.trace.taken ∧
        s'.trace.stored = s.trace.stored := by
  obtain ⟨x, hx⟩ := exists_first_left (reachable_inv hw hr) hmore
  refine ⟨x, hx, (alone_dequeue hw hcard hr hq i hx).mono ?_⟩
  rintro s' ⟨-, -, hs', hidle⟩
  obtain ⟨hret, htk, -⟩ := hs'.returned hidle
  exact ⟨hret, htk, hs'.stored⟩

/-- What one thread does to enqueue a pointer. -/
def enqueueRun (i : Fin 2) (ptr : ℕ) : List (Fin 2 × Act) :=
  (i, .enqueue ptr) :: List.replicate 6 (i, .go)

/-- Each of two threads enqueues a pointer. -/
def pushRun : List (Fin 2 × Act) :=
  enqueueRun 0 42 ++ (1, .enqueue 43) :: List.replicate 5 (1, .go)

theorem dequeue_finds_first_pushed : ∃ s : State (Fin 2),
    runs (step .w64 3) (initial (Fin 2) 3) pushRun = some s ∧
      Alone .w64 3 s 1 .dequeue fun s' =>
        (s'.thread 1).ret = .dequeued (some 42) ∧ s'.trace.taken = [(16, 42)] := by
  obtain ⟨s, hs, hd⟩ := Option.map_eq_some_iff.mp (by decide :
    (runs (step .w64 3) (initial (Fin 2) 3) pushRun).map
        (fun s => ((s.thread 0).pc, (s.thread 1).pc, s.trace)) =
      some (.idle, .idle, ⟨[(17, 43), (16, 42)], [], []⟩))
  simp only [Prod.mk.injEq] at hd
  obtain ⟨h₀, h₁, htr⟩ := hd
  have hr : Reachable .w64 3 s := reach_of_runs (fun _ _ _ _ h => h) (.init rfl) hs
  have hq : Quiescent s := Fin.forall_fin_two.mpr ⟨h₀, h₁⟩
  obtain ⟨x, hx, hrun⟩ := dequeue_finds_first (by decide) (by decide) hr hq (by simp [htr]) 1
  rw [htr] at hx
  obtain rfl : x = (16, 42) := by
    have hleast := hx.least (16, 42) (by simp) (by simp)
    rcases List.mem_pair.mp hx.stored with rfl | rfl
    · exact absurd hleast (by decide)
    · rfl
  refine ⟨s, hs, hrun.mono ?_⟩
  rintro s' ⟨hret, htaken, -⟩
  exact ⟨hret, by rw [htaken, htr]⟩

end Libevl.RingPtr
