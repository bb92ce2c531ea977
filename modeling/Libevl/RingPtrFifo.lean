import Libevl.RingPtrFull

/-!
# One thread sees a bounded queue

Without concurrency no tail ticket is given up, so the tickets from head to
tail are the queue. A dequeue that finds nothing moves head and tail on by one.
-/
namespace Libevl.RingPtr
open Transition

/-- The calls of a client. -/
inductive Op
  | enqueue (ptr : ℕ)
  | dequeue
  deriving DecidableEq, Repr

def Op.act : Op → Act
  | .enqueue ptr => .enqueue ptr
  | .dequeue => .dequeue

/-- A queue of at most `cap` pointers, as the client is meant to see it. -/
def fifo (cap : ℕ) (q : List ℕ) : Op → List ℕ × Ret
  | .enqueue ptr =>
    if q.length = cap then (q, .enqueued false) else (q ++ [ptr], .enqueued true)
  | .dequeue =>
    match q with
    | [] => ([], .dequeued none)
    | ptr :: q => (q, .dequeued (some ptr))

/-- What is queued after a sequence of calls. -/
def queueAfter (cap : ℕ) : List ℕ → List Op → List ℕ
  | q, [] => q
  | q, op :: ops => queueAfter cap (fifo cap q op).1 ops

/-- What the calls of a sequence return. -/
def answers (cap : ℕ) : List ℕ → List Op → List Ret
  | _, [] => []
  | q, op :: ops => (fifo cap q op).2 :: answers cap (fifo cap q op).1 ops

/-- One call from start to end. -/
def Call (w : WordSize) (order : ℕ) (s : State Unit) (op : Op) (s' : State Unit) : Prop :=
  ∃ (s₀ : State Unit) (as : List Bool), step w order s ((), op.act) = some s₀ ∧
    runs (step w order) s₀ (as.map (lone ())) = some s' ∧ (s'.thread ()).pc = .idle

/-- One call after the other, with what they return. -/
inductive Calls (w : WordSize) (order : ℕ) : State Unit → List Op → List Ret → State Unit → Prop
  | nil (s : State Unit) : Calls w order s [] [] s
  | cons {s s' s'' : State Unit} {op : Op} {ops : List Op} {rets : List Ret} :
      Call w order s op s' → Calls w order s' ops rets s'' →
      Calls w order s (op :: ops) ((s'.thread ()).ret :: rets) s''

variable {w : WordSize} {order : ℕ}

/-- A lone run that ends has its outcome. -/
theorem Alone.of_call {s s' : State Unit} {op : Op} {Q : State Unit → Prop}
    (h : Alone w order s () op.act Q) (hc : Call w order s op s') : Q s' := by
  obtain ⟨s₀, hs₀, hrun⟩ := h
  obtain ⟨s₁, as, hs₁, hr, hidle⟩ := hc
  rw [hs₀, Option.some.injEq] at hs₁
  subst hs₁
  refine hrun.of_done (fun s hs => step_lone_idle hs false) (fun b hb => ?_) hr hidle
  obtain ⟨sp, -, rfl⟩ := List.mem_map.mp hb
  exact ⟨sp, rfl⟩

section Miss

variable {ι : Type*} [DecidableEq ι]

/-- The head ticket of an empty ring is drawn and given up. -/
structure Drew (s : State ι) (r : Ring) (g : Trace) : Prop where
  head : r.head = s.ring.head + 1
  tail : r.tail = s.ring.tail
  stored : g.stored = s.trace.stored
  taken : g.taken = s.trace.taken

/-- Where a lone dequeue stands which finds nothing. -/
def Pc.misses (w : WordSize) (order : ℕ) (s : State ι) (r : Ring) (g : Trace) : Pc → Prop
  | .deqLoadThreshold | .deqFetchHead => r = s.ring ∧ g = s.trace
  | .deqLoadEntry h => h = s.ring.head ∧ Drew s r g
  | .deqCas h e => h = s.ring.head ∧ Drew s r g ∧ e = (r.array (ringMap w order h)).entry
  | .deqLoadTail h => h = s.ring.head ∧ Drew s r g
  | .catchupCas tail head => tail = s.ring.tail ∧ head = s.ring.head + 1 ∧ Drew s r g
  | .catchupHead => Drew s r g
  | .catchupTail head => head = s.ring.head + 1 ∧ Drew s r g
  | .deqSubFail => r.head = s.ring.head + 1 ∧ r.tail = s.ring.head + 1 ∧
      g.stored = s.trace.stored ∧ g.taken = s.trace.taken
  | _ => False

/-- A lone dequeue from `s` which finds nothing. -/
structure Misses (w : WordSize) (order : ℕ) (s : State ι) (r : Ring) (t : Thread) (g : Trace) :
    Prop where
  running : t.pc ≠ .idle → t.pc.misses w order s r g
  returned : t.pc = .idle → t.ret = .dequeued none ∧ r.tail = r.head ∧
    g.stored = s.trace.stored ∧ g.taken = s.trace.taken

variable {s s' : State ι} {i : ι}

omit [DecidableEq ι] in
/-- The cell of the head ticket holds nothing for it. -/
theorem Drew.check (hw : w.minOrder ≤ order) (hempty : s.ring.tail = s.ring.head) {r : Ring}
    {g : Trace} (hc : Core w order r g) (h : Drew s r g) (t : Thread)
    (hk : cells order ≤ s.ring.head ∧ ¬ g.gone s.ring.head) :
    Misses w order s
        (deqCheck order r t g s.ring.head (r.array (ringMap w order s.ring.head)).entry).ring
        (deqCheck order r t g s.ring.head (r.array (ringMap w order s.ring.head)).entry).thread
        (deqCheck order r t g s.ring.head (r.array (ringMap w order s.ring.head)).entry).trace ∧
      (deqCheck order r t g s.ring.head (r.array (ringMap w order s.ring.head)).entry).ring = r ∧
      (deqCheck order r t g s.ring.head
        (r.array (ringMap w order s.ring.head)).entry).thread.pc.rank < 14 := by
  have hpos : 0 < order := (minOrder_pos w).trans_le hw
  have hrun {t' : Thread} {g' : Trace} (hb : t'.pc ≠ .idle)
      (hp : t'.pc.misses w order s r g') : Misses w order s r t' g' :=
    ⟨fun _ => hp, fun hn => absurd hn hb⟩
  unfold deqCheck
  rcases deqVerdict_cases hpos (hc.low (ringMap w order s.ring.head)) s.ring.head with
    ⟨hv, he⟩ | ⟨hv, -, -⟩ | ⟨hv, -, -⟩ <;> rw [hv]
  · obtain ⟨y, hy, hyk⟩ := List.mem_map.mp (hc.stored_of_cycle hw hk.1 hk.2 he)
    have hlt := (hc.stored_range y hy).2
    rw [h.tail] at hlt
    omega
  · exact ⟨hrun (by simp [Thread.at]) ⟨rfl, h.head, h.tail, h.stored, h.taken⟩, rfl,
      by simp [Thread.at, Pc.rank]⟩
  · exact ⟨hrun (by simp [Thread.at]) ⟨rfl, h, rfl⟩, rfl, by simp [Thread.at, Pc.rank]⟩

omit [DecidableEq ι] in
/-- One step of a lone dequeue which finds nothing. -/
theorem Misses.step (hw : w.minOrder ≤ order) (hempty : s.ring.tail = s.ring.head)
    (hi : Inv w order s') (h : Misses w order s s'.ring (s'.thread i) s'.trace)
    (hbusy : (s'.thread i).pc ≠ .idle) (sp : Bool) :
    ∃ e, threadStep w order s'.ring (s'.thread i) s'.trace sp = some e ∧
      Misses w order s e.ring e.thread e.trace ∧
      (sp = false → lag (s.ring.head + 1) e.ring e.thread.pc <
        lag (s.ring.head + 1) s'.ring (s'.thread i).pc) := by
  have hpc := h.running hbusy
  have hrange := hi.head.range i
  have hcore := hi.core
  have hrun {r : Ring} {t : Thread} {g : Trace} (hb : t.pc ≠ .idle)
      (hp : t.pc.misses w order s r g) : Misses w order s r t g :=
    ⟨fun _ => hp, fun hn => absurd hn hb⟩
  have hret {r : Ring} {t : Thread} {g : Trace} (hb : t.pc = .idle)
      (hp : t.ret = .dequeued none ∧ r.tail = r.head ∧ g.stored = s.trace.stored ∧
        g.taken = s.trace.taken) : Misses w order s r t g :=
    ⟨fun hn => absurd hb hn, fun _ => hp⟩
  have hlag {r r' : Ring} {pc pc' : Pc} (hr : r'.head = r.head) (hlt : pc'.rank < pc.rank) :
      lag (s.ring.head + 1) r' pc' < lag (s.ring.head + 1) r pc := by
    simpa [lag, hr] using hlt
  generalize ht : s'.thread i = t at *
  generalize hr : s'.ring = r at *
  generalize hg : s'.trace = g at *
  obtain ⟨pc, cursor, ret⟩ := t
  dsimp only at hpc hbusy hrange
  cases pc <;> simp only [Pc.misses] at hpc
  case deqLoadThreshold =>
    obtain ⟨rfl, rfl⟩ := hpc
    by_cases hth : s.ring.threshold < 0
    · exact ⟨_, if_pos hth, hret rfl ⟨rfl, hempty, rfl, rfl⟩,
        fun _ => hlag rfl (by simp [Thread.returns, Pc.rank])⟩
    · exact ⟨_, if_neg hth, hrun (by simp [Thread.at]) ⟨rfl, rfl⟩,
        fun _ => hlag rfl (by simp [Thread.at, Pc.rank])⟩
  case deqFetchHead =>
    obtain ⟨rfl, rfl⟩ := hpc
    refine ⟨_, rfl, hrun (by simp [Thread.at]) ⟨rfl, rfl, rfl, rfl, rfl⟩, fun _ => ?_⟩
    simp only [lag, Thread.at, Pc.rank]
    omega
  case deqLoadEntry k =>
    obtain ⟨rfl, hd⟩ := hpc
    obtain ⟨hge, -, hgone⟩ := hrange _ rfl
    obtain ⟨h₁, h₂, h₃⟩ := hd.check hw hempty hcore ⟨.deqLoadEntry s.ring.head, cursor, ret⟩
      ⟨hge, hgone⟩
    exact ⟨_, rfl, h₁, fun _ => hlag (by rw [h₂]) h₃⟩
  case deqCas k e =>
    obtain ⟨rfl, hd, rfl⟩ := hpc
    obtain ⟨hge, -, hgone⟩ := hrange _ rfl
    cases sp with
    | true =>
      obtain ⟨h₁, -, -⟩ := hd.check hw hempty hcore
        ⟨.deqCas s.ring.head (r.array (ringMap w order s.ring.head)).entry, cursor, ret⟩
        ⟨hge, hgone⟩
      exact ⟨_, rfl, h₁, by simp⟩
    | false =>
      exact ⟨_, if_pos (by simp), hrun (by simp [Thread.at])
        ⟨rfl, hd.head, hd.tail, hd.stored, hd.taken⟩,
        fun _ => hlag rfl (by simp [Thread.at, Pc.rank])⟩
  case deqLoadTail k =>
    obtain ⟨rfl, hd⟩ := hpc
    have htail := hd.tail
    exact ⟨_, if_pos (by omega), hrun (by simp [Thread.at]) ⟨htail, rfl, hd⟩,
      fun _ => hlag rfl (by simp [Thread.at, Pc.rank])⟩
  case catchupCas tail head =>
    obtain ⟨rfl, rfl, hd⟩ := hpc
    cases sp with
    | true =>
      exact ⟨_, rfl, hrun (by simp [Thread.at]) hd, by simp⟩
    | false =>
      exact ⟨_, if_pos ⟨Bool.false_ne_true, hd.tail⟩, hrun (by simp [Thread.at])
        ⟨hd.head, rfl, hd.stored, hd.taken⟩, fun _ => hlag rfl (by simp [Thread.at, Pc.rank])⟩
  case catchupHead =>
    exact ⟨_, rfl, hrun (by simp [Thread.at]) ⟨hpc.head, hpc⟩,
      fun _ => hlag rfl (by simp [Thread.at, Pc.rank])⟩
  case catchupTail head =>
    obtain ⟨rfl, hd⟩ := hpc
    have htail := hd.tail
    exact ⟨_, if_neg (by omega), hrun (by simp [Thread.at]) ⟨htail, rfl, hd⟩,
      fun _ => hlag rfl (by simp [Thread.at, Pc.rank])⟩
  case deqSubFail =>
    obtain ⟨h₁, h₂, h₃, h₄⟩ := hpc
    exact ⟨_, rfl, hret rfl ⟨rfl, h₂.trans h₁.symm, h₃, h₄⟩,
      fun _ => hlag rfl (by simp [Thread.returns, Pc.rank])⟩

/-- A dequeue that runs alone on an empty ring returns nothing. -/
theorem alone_miss (hw : w.minOrder ≤ order) (hr : Reachable w order s) (hq : Quiescent s)
    (hempty : s.ring.tail = s.ring.head) (i : ι) :
    Alone w order s i .dequeue fun s' => Reachable w order s' ∧ Quiescent s' ∧
      Misses w order s s'.ring (s'.thread i) s'.trace := by
  refine alone_of (s.ring.head + 1) (P := Misses w order s) hr hq (if_pos (hq i)) ?_ ?_ ?_
  · refine ⟨fun _ => ?_, fun hn => ?_⟩
    · simp [Thread.at, Pc.misses]
    · simp [Thread.at] at hn
  · intro s' hr' hs' hbusy sp
    exact hs'.step hw hempty (reachable_inv hw hr') hbusy sp
  · exact fun s' hr' hq' hs' => ⟨hr', hq', hs'⟩

end Miss

/-- The ring of one thread holds the queue `q`. -/
structure Queued (w : WordSize) (order : ℕ) (s : State Unit) (q : List ℕ) : Prop where
  reachable : Reachable w order s
  quiet : Quiescent s
  room : q.length ≤ cells order
  tail : s.ring.tail = s.ring.head + q.length
  stored : ∀ j p, q[j]? = some p → (s.ring.head + j, p) ∈ s.trace.stored

/-- Every call keeps the queue and returns what the queue says. -/
theorem Queued.call (hw : w.minOrder ≤ order) {s : State Unit} {q : List ℕ}
    (h : Queued w order s q) (op : Op) :
    Alone w order s () op.act fun s' => Queued w order s' (fifo (cells order) q op).1 ∧
      (s'.thread ()).ret = (fifo (cells order) q op).2 := by
  obtain ⟨hr, hq, hroom, htail, hst⟩ := h
  obtain ⟨hi, hc⟩ := reachable_caught hw hr
  cases op with
  | enqueue ptr =>
    refine (alone_enqueue hw hr hq () ptr).mono ?_
    rintro s' ⟨hr', hq', hp⟩
    generalize (s'.thread ()).ret = ret at hp ⊢
    cases hp with
    | stored hlt hring htrace =>
      have hne : q.length ≠ cells order := by omega
      rw [fifo, if_neg hne]
      refine ⟨⟨hr', hq', ?_, ?_, ?_⟩, rfl⟩
      · rw [List.length_append]
        exact Nat.succ_le_of_lt (by omega)
      · rw [hring, List.length_append]
        show s.ring.tail + 1 = s.ring.head + (q.length + 1)
        omega
      · intro j p hj
        rw [hring, htrace]
        show (s.ring.head + j, p) ∈ (s.ring.tail, ptr) :: s.trace.stored
        rw [List.getElem?_append] at hj
        split_ifs at hj with hlt
        · exact List.mem_cons_of_mem _ (hst j p hj)
        · obtain ⟨hj₀, hj₁⟩ : j - q.length = 0 ∧ ptr = p := by
            rw [List.getElem?_singleton] at hj
            split_ifs at hj with hz
            exact ⟨hz, by simpa using hj⟩
          rw [htail, ← hj₁, show j = q.length by omega]
          exact List.mem_cons_self
    | full hfull hring htrace =>
      have heq : q.length = cells order := by omega
      rw [fifo, if_pos heq]
      exact ⟨⟨hr', hq', hroom, by rw [hring, htail], by rw [hring, htrace]; exact hst⟩, rfl⟩
  | dequeue =>
    cases q with
    | nil =>
      refine (alone_miss hw hr hq htail ()).mono ?_
      rintro s' ⟨hr', hq', hm⟩
      obtain ⟨hret, ht, -, -⟩ := hm.returned (hq' ())
      exact ⟨⟨hr', hq', Nat.zero_le _, ht, fun j p hj => nomatch hj⟩, hret⟩
    | cons ptr q =>
      have hx : First s.trace (s.ring.head, ptr) := by
        have hmem := hst 0 ptr rfl
        exact ⟨hmem, (hc.ahead hi hq hmem).mpr le_rfl,
          fun y hy hyt => (hc.ahead hi hq hy).mp hyt⟩
      refine (alone_dequeue hw (by simp [Nat.one_le_two_pow]) hr hq () hx).mono ?_
      rintro s' ⟨hr', hq', hs', hidle⟩
      obtain ⟨hret, -, hhead⟩ := hs'.returned hidle
      refine ⟨⟨hr', hq', ?_, ?_, ?_⟩, hret⟩
      · exact (Nat.le_succ _).trans hroom
      · rw [hs'.tail, hhead, htail, List.length_cons]
        show _ = s.ring.head + 1 + q.length
        omega
      · intro j p hj
        have hj : q[j]? = some p := hj
        have hmem := hst (j + 1) p (by simpa using hj)
        rw [hs'.stored, hhead]
        rwa [show s.ring.head + 1 + j = s.ring.head + (j + 1) by omega]

theorem initial_queued : Queued w order (initial Unit order) [] where
  reachable := .init rfl
  quiet := fun _ => rfl
  room := Nat.zero_le _
  tail := rfl
  stored := by simp

/-- A sequence of calls keeps the queue and returns what the queue says. -/
theorem Queued.calls (hw : w.minOrder ≤ order) {s s' : State Unit} {q : List ℕ} {ops : List Op}
    {rets : List Ret} (h : Queued w order s q) (hc : Calls w order s ops rets s') :
    rets = answers (cells order) q ops ∧
      Queued w order s' (queueAfter (cells order) q ops) := by
  induction hc generalizing q with
  | nil s => exact ⟨rfl, h⟩
  | cons hcall _ ih =>
    obtain ⟨hq, hret⟩ := (h.call hw _).of_call hcall
    obtain ⟨hrets, hq'⟩ := ih hq
    exact ⟨by rw [answers, hret, hrets], hq'⟩

/-- Used by one thread the ring is a queue of `2 ^ (order + 1)` pointers: every sequence of calls
has returned what the queue says, and every next call returns what it says. -/
theorem calls_refine_fifo (hw : w.minOrder ≤ order) {ops : List Op} {rets : List Ret}
    {s : State Unit} (h : Calls w order (initial Unit order) ops rets s) :
    rets = answers (2 ^ (order + 1)) [] ops ∧ ∀ op, Alone w order s () op.act fun s' =>
      (s'.thread ()).ret = (fifo (2 ^ (order + 1)) (queueAfter (2 ^ (order + 1)) [] ops) op).2 := by
  rw [← cells_eq_two_pow]
  obtain ⟨hrets, hq⟩ := initial_queued.calls hw h
  exact ⟨hrets, fun op => (hq.call hw op).mono fun _ h => h.2⟩

theorem calls_refine_fifo_two : ∃ s : State Unit,
    Calls .w64 3 (initial Unit 3) [.enqueue 42, .enqueue 43] [.enqueued true, .enqueued true] s ∧
      Alone .w64 3 s () .dequeue fun s' => (s'.thread ()).ret = .dequeued (some 42) := by
  obtain ⟨s, hs, hd⟩ := Option.map_eq_some_iff.mp (by decide :
    (runs (step .w64 3) (initial Unit 3) (((), .enqueue 42) :: List.replicate 6 ((), .go))).map
        (fun s => ((s.thread ()).pc, (s.thread ()).ret, (runs (step .w64 3) s
          (((), .enqueue 43) :: List.replicate 5 ((), .go))).map
            fun s' => ((s'.thread ()).pc, (s'.thread ()).ret))) =
      some (.idle, .enqueued true, some (.idle, .enqueued true)))
  simp only [Prod.mk.injEq] at hd
  obtain ⟨hidle, hret, hd'⟩ := hd
  obtain ⟨s', hs', hd'⟩ := Option.map_eq_some_iff.mp hd'
  simp only [Prod.mk.injEq] at hd'
  obtain ⟨s₀, hs₀, hrun⟩ := Option.bind_eq_some_iff.mp hs
  obtain ⟨s₁, hs₁, hrun'⟩ := Option.bind_eq_some_iff.mp hs'
  have hcall : Call .w64 3 (initial Unit 3) (.enqueue 42) s :=
    ⟨s₀, List.replicate 6 false, hs₀, hrun, hidle⟩
  have hcall' : Call .w64 3 s (.enqueue 43) s' :=
    ⟨s₁, List.replicate 5 false, hs₁, hrun', hd'.1⟩
  have hcalls : Calls .w64 3 (initial Unit 3) [.enqueue 42, .enqueue 43]
      [.enqueued true, .enqueued true] s' := by
    have h := Calls.cons hcall (.cons hcall' (.nil s'))
    rwa [hret, hd'.2] at h
  exact ⟨s', hcalls, (calls_refine_fifo (by decide) hcalls).2 .dequeue⟩

end Libevl.RingPtr
