import Libevl.Sem

/-!
# Tokens and sleepers of the semaphore

A step of one thread does one of few things to the value, and its own counts
follow. The value is what the initial one, the increments, the granted gets and
the sleepers make it, and threads only sleep while it is negative. The counts
are read off the steps of a run in the end: calls, returns and raises of puts.
-/
namespace Libevl.Sem
open Transition

/-- A put in progress which has raised the value already. -/
def Thread.pending (t : Thread) : ℕ := if t.pc = .putRecheck ∨ t.pc = .putSignal 0 then 1 else 0

/-- What the local variables have been checked for. -/
def Pc.Checked : Pc → Prop
  | .putPolled val | .putCas val => 0 ≤ val
  | .getCas _ val => 0 < val
  | .putSignal sigval => sigval = 0 ∨ sigval = 1
  | _ => True

/-- A thread has raised the value once for every put. -/
structure Thread.Ok (t : Thread) : Prop where
  once : t.raised = t.puts + t.pending
  checked : t.pc.Checked

/-- Only the value and the counts matter for the account. -/
structure Unmoved (t t' : Thread) : Prop where
  raised : t'.raised = t.raised
  gets : t'.gets = t.gets
  asleep : t'.asleep = t.asleep

/-- What one thread may do to the value by itself. -/
inductive Moved (e : Event) (t : Thread) (o : Event × Thread) : Prop
  | keeps : o.1.value = e.value → Unmoved t o.2 → Moved e t o
  | raises : 0 ≤ e.value → o.1.value = narrow32 (e.value + 1) → o.2.raised = t.raised + 1 →
      o.2.gets = t.gets → o.2.asleep = t.asleep → Moved e t o
  | takes : 0 < e.value → o.1.value = narrow32 (e.value - 1) ∨ o.1.value = e.value - 1 →
      o.2.raised = t.raised → o.2.gets = t.gets + 1 → o.2.asleep = t.asleep → Moved e t o
  | sleeps : e.value ≤ 0 → o.1.value = e.value - 1 → o.2.raised = t.raised →
      o.2.gets = t.gets → o.2.asleep = t.asleep + 1 → Moved e t o
  | leaves : o.1.value = e.value + 1 → o.2.raised = t.raised → o.2.gets = t.gets →
      o.2.asleep + 1 = t.asleep → Moved e t o

section Thread

variable {ι : Type*} {e : Event} {t : Thread} {f : Fn} {val : ℤ}

/-- A thread that is not about to end a put goes on, or leaves. -/
theorem Thread.Ok.goto {t' : Thread} (h : t.Ok) (ht : t.pending = 0) (hr : t'.raised = t.raised)
    (hp : t'.puts = t.puts) (hpend : t'.pending = 0) (hc : t'.pc.Checked) : t'.Ok := by
  refine ⟨?_, hc⟩
  rw [hr, hp, hpend, h.once, ht]

theorem tryGet_ok (h : t.Ok) (ht : t.pending = 0) : (tryGet f t val).Ok := by
  unfold tryGet
  split_ifs with hv
  · exact h.goto ht rfl rfl (by simp [Thread.pending]) trivial
  · exact h.goto ht rfl rfl (by simp [Thread.pending, Thread.returns]) trivial
  · exact h.goto ht rfl rfl (by simp [Thread.pending]) (not_le.mp hv)

theorem tryGet_unmoved (ht : t.pc ≠ .sleep) : Unmoved t (tryGet f t val) := by
  unfold tryGet
  split_ifs
  · exact ⟨rfl, rfl, by simp [Thread.asleep, ht]⟩
  · exact ⟨rfl, rfl, by simp [Thread.asleep, Thread.returns, ht]⟩
  · exact ⟨rfl, rfl, by simp [Thread.asleep, ht]⟩

theorem retryPut_ok (h : t.Ok) (ht : t.pending = 0) : (retryPut t val).Ok := by
  unfold retryPut
  split_ifs with hv
  · exact h.goto ht rfl rfl (by simp [Thread.pending]) (.inr rfl)
  · exact h.goto ht rfl rfl (by simp [Thread.pending]) (not_lt.mp hv)

theorem retryPut_unmoved (ht : t.pc ≠ .sleep) : Unmoved t (retryPut t val) := by
  unfold retryPut
  split_ifs
  · exact ⟨rfl, rfl, by simp [Thread.asleep, ht]⟩
  · exact ⟨rfl, rfl, by simp [Thread.asleep, ht]⟩

theorem enter_ok (c : Caller) (h : t.Ok) (ht : t.pending = 0) : (enter f c t).Ok := by
  cases f <;> simp only [enter]
  case timedget =>
    split_ifs
    · exact h.goto ht rfl rfl (by simp [Thread.pending]) trivial
    · exact h.goto ht rfl rfl (by simp [Thread.pending]) trivial
    · exact h.goto ht rfl rfl (by simp [Thread.pending, Thread.returns]) trivial
  all_goals exact h.goto ht rfl rfl (by simp [Thread.pending]) trivial

theorem enter_unmoved (c : Caller) (ht : t.pc ≠ .sleep) : Unmoved t (enter f c t) := by
  cases f <;> simp only [enter]
  case timedget =>
    split_ifs
    · exact ⟨rfl, rfl, by simp [Thread.asleep, ht]⟩
    · exact ⟨rfl, rfl, by simp [Thread.asleep, ht]⟩
    · exact ⟨rfl, rfl, by simp [Thread.asleep, Thread.returns, ht]⟩
  all_goals exact ⟨rfl, rfl, by simp [Thread.asleep, ht]⟩

/-- A put ends after it has raised the value. -/
theorem posted_ok (h : t.Ok) (ht : t.pending = 1) : t.posted.Ok := by
  have hz : t.posted.pending = 0 := by simp [Thread.pending, Thread.posted, Thread.returns]
  refine ⟨?_, trivial⟩
  rw [hz]
  exact h.once.trans (by rw [ht]; rfl)

theorem posted_unmoved (ht : t.pc ≠ .sleep) : Unmoved t t.posted :=
  ⟨rfl, rfl, by simp [Thread.asleep, Thread.posted, Thread.returns, ht]⟩

/-- What the kernel grants is no part of a put. -/
theorem granted_ok (h : t.Ok) (ht : t.pending = 0) : t.granted.Ok :=
  h.goto ht rfl rfl (by simp [Thread.pending, Thread.granted, Thread.returns]) trivial

/-- The thread that posts through the kernel. -/
def Thread.served (t : Thread) : Thread := { t.posted with raised := t.raised + 1 }

theorem served_ok {sigval : ℤ} (h : t.Ok) (hpc : t.pc = .putSignal sigval) (hz : sigval ≠ 0) :
    t.served.Ok := by
  have hp : t.pending = 0 := by simp [Thread.pending, hpc, hz]
  have hp' : t.served.pending = 0 := by
    simp [Thread.served, Thread.pending, Thread.posted, Thread.returns]
  have honce := h.once
  refine ⟨?_, trivial⟩
  rw [hp']
  change t.raised + 1 = t.puts + 1 + 0
  omega

/-- Who posts does not sleep, and who is served does not sleep any more. -/
theorem served_asleep {sigval : ℤ} (hpc : t.pc = .putSignal sigval) :
    t.asleep = 0 ∧ t.served.asleep = 0 ∧ t.posted.asleep = 0 := by
  simp [Thread.asleep, hpc, Thread.served, Thread.posted, Thread.returns]

theorem granted_asleep (hpc : t.pc = .sleep) : t.asleep = 1 ∧ t.granted.asleep = 0 := by
  simp [Thread.asleep, hpc, Thread.granted, Thread.returns]

/-- The steps of a thread at a given place, in the kernel or out of it. -/
theorem threadStep_moved {a : Act ι} {o : Event × Thread} (h : t.Ok)
    (ho : threadStep e t a = some o) : Moved e t o ∧ o.2.Ok := by
  cases a <;> simp only [threadStep] at ho
  case call f c =>
    split_ifs at ho with hpc
    cases ho
    have ht : t.pending = 0 := by simp [Thread.pending, hpc]
    have hs : t.pc ≠ .sleep := by simp [hpc]
    exact ⟨.keeps rfl (enter_unmoved c hs), enter_ok c h ht⟩
  case go =>
    split at ho
    case h_1 hpc =>
      have ht : t.pending = 0 := by simp [Thread.pending, hpc]
      split_ifs at ho with hv
      · cases ho
        exact ⟨.keeps rfl ⟨rfl, rfl, by simp [Thread.asleep, hpc]⟩,
          h.goto ht rfl rfl (by simp [Thread.pending]) (.inr rfl)⟩
      · cases ho
        exact ⟨.keeps rfl ⟨rfl, rfl, by simp [Thread.asleep, hpc]⟩,
          h.goto ht rfl rfl (by simp [Thread.pending]) (not_lt.mp hv)⟩
    case h_2 val hpc =>
      have ht : t.pending = 0 := by simp [Thread.pending, hpc]
      have hval := h.checked
      rw [hpc] at hval
      split_ifs at ho with hp
      · cases ho
        exact ⟨.keeps rfl ⟨rfl, rfl, by simp [Thread.asleep, hpc]⟩,
          h.goto ht rfl rfl (by simp [Thread.pending]) (.inr rfl)⟩
      · cases ho
        exact ⟨.keeps rfl ⟨rfl, rfl, by simp [Thread.asleep, hpc]⟩,
          h.goto ht rfl rfl (by simp [Thread.pending]) hval⟩
    case h_3 val hpc =>
      have ht : t.pending = 0 := by simp [Thread.pending, hpc]
      have hs : t.pc ≠ .sleep := by simp [hpc]
      have hval := h.checked
      have honce := h.once
      rw [hpc] at hval
      split_ifs at ho with he
      · subst he
        cases ho
        refine ⟨.raises hval rfl rfl rfl (by simp [Thread.asleep, hpc]), ?_, trivial⟩
        simp only [Thread.pending, true_or, if_true]
        omega
      · cases ho
        exact ⟨.keeps rfl (retryPut_unmoved hs), retryPut_ok h ht⟩
    case h_4 hpc =>
      have ht : t.pending = 1 := by simp [Thread.pending, hpc]
      split_ifs at ho with hp
      · cases ho
        have honce := h.once
        refine ⟨.keeps rfl ⟨rfl, rfl, by simp [Thread.asleep, hpc]⟩, ?_, .inl rfl⟩
        simp only [Thread.pending, or_true, if_true]
        omega
      · cases ho
        exact ⟨.keeps rfl (posted_unmoved (by simp [hpc])), posted_ok h ht⟩
    case h_5 f hpc =>
      cases ho
      have ht : t.pending = 0 := by simp [Thread.pending, hpc]
      have hs : t.pc ≠ .sleep := by simp [hpc]
      exact ⟨.keeps rfl (tryGet_unmoved hs), tryGet_ok h ht⟩
    case h_6 f val hpc =>
      have ht : t.pending = 0 := by simp [Thread.pending, hpc]
      have hs : t.pc ≠ .sleep := by simp [hpc]
      have hval := h.checked
      rw [hpc] at hval
      split_ifs at ho with he
      · subst he
        cases ho
        refine ⟨.takes hval (.inl rfl) rfl rfl ?_, granted_ok h ht⟩
        simp [Thread.asleep, Thread.granted, Thread.returns, hpc]
      · cases ho
        exact ⟨.keeps rfl (tryGet_unmoved hs), tryGet_ok h ht⟩
    case h_7 hpc =>
      have ht : t.pending = 0 := by simp [Thread.pending, hpc]
      split_ifs at ho with hv
      · cases ho
        refine ⟨.sleeps (by omega) rfl rfl rfl (by simp [Thread.asleep, hpc]), ?_⟩
        exact h.goto ht rfl rfl (by simp [Thread.pending]) trivial
      · cases ho
        refine ⟨.takes (by omega) (.inr rfl) rfl rfl ?_, granted_ok h ht⟩
        simp [Thread.asleep, Thread.granted, Thread.returns, hpc]
    case h_8 => cases ho
  case spurious =>
    split at ho
    case h_1 val hpc =>
      have ht : t.pending = 0 := by simp [Thread.pending, hpc]
      have hs : t.pc ≠ .sleep := by simp [hpc]
      split_ifs at ho
      cases ho
      exact ⟨.keeps rfl (retryPut_unmoved hs), retryPut_ok h ht⟩
    case h_2 f val hpc =>
      have ht : t.pending = 0 := by simp [Thread.pending, hpc]
      have hs : t.pc ≠ .sleep := by simp [hpc]
      split_ifs at ho
      cases ho
      exact ⟨.keeps rfl (tryGet_unmoved hs), tryGet_ok h ht⟩
    case h_3 => cases ho
  case signal => cases ho
  case timeout =>
    split_ifs at ho with hpc
    cases ho
    have ht : t.pending = 0 := by simp [Thread.pending, hpc]
    refine ⟨.leaves rfl rfl rfl (by simp [Thread.asleep, Thread.returns, hpc]), ?_⟩
    exact h.goto ht rfl rfl (by simp [Thread.pending, Thread.returns]) trivial

end Thread

variable {ι : Type*} [Fintype ι] {initval : ℤ}

/-- Threads only sleep while the value is negative enough, and raise it once for every put. -/
structure Settled (s : State ι) : Prop where
  asleep : 0 < sleepers s → s.event.value + sleepers s ≤ 0
  thread : ∀ i, (s.thread i).Ok

/-- The account of the value, and when threads sleep. -/
structure Inv (initval : ℤ) (s : State ι) : Prop where
  value : s.event.value = tokens initval s - sleepers s
  bound : tokens initval s < 2 ^ 31
  asleep : 0 < sleepers s → s.event.value + sleepers s ≤ 0
  thread : ∀ i, (s.thread i).Ok

theorem Inv.settled {s : State ι} (h : Inv initval s) : Settled s := ⟨h.asleep, h.thread⟩

theorem initial_settled : Settled (initial ι initval) where
  asleep := by simp [sleepers, initial, total, Thread.asleep]
  thread _ := ⟨rfl, trivial⟩

theorem initial_inv (h : initval < 2 ^ 31) : Inv initval (initial ι initval) where
  value := by simp [tokens, raised, gets, sleepers, initial, total, Thread.asleep]
  bound := by simpa [tokens, raised, gets, initial, total] using h
  asleep := initial_settled.asleep
  thread := initial_settled.thread

variable [DecidableEq ι]

omit [Fintype ι] in
/-- Only the thread that moves has to be looked at. -/
theorem ok_update {s : State ι} {i : ι} {t : Thread} (h : ∀ j, (s.thread j).Ok) (ht : t.Ok) (j : ι) :
    (Function.update s.thread i t j).Ok := by
  by_cases hj : j = i
  · subst hj
    simpa only [Function.update_self] using ht
  · simpa only [Function.update_of_ne hj] using h j

theorem Moved.settled {s : State ι} {i : ι} {o : Event × Thread} (h : Settled s)
    (hm : Moved s.event (s.thread i) o) (hok : o.2.Ok) :
    Settled ⟨o.1, Function.update s.thread i o.2⟩ := by
  have ha := h.asleep
  refine ⟨?_, ok_update h.thread hok⟩
  simp only [sleepers, total_update]
  simp only [sleepers, total_eq _ _ i] at ha
  intro hpos
  cases hm with
  | keeps he hu =>
    rw [hu.asleep] at hpos ⊢
    rw [he]
    exact ha hpos
  | raises hnn he hr hg hs => omega
  | takes hnn he hr hg hs => omega
  | sleeps hneg he hr hg hs => omega
  | leaves he hr hg hs => omega

/-- A thread that moves keeps the account. -/
theorem Moved.inv {s : State ι} {i : ι} {o : Event × Thread} (h : Inv initval s)
    (hm : Moved s.event (s.thread i) o) (hok : o.2.Ok)
    (hb : tokens initval ⟨o.1, Function.update s.thread i o.2⟩ < 2 ^ 31) :
    Inv initval ⟨o.1, Function.update s.thread i o.2⟩ := by
  have hv := h.value
  have hb₀ := h.bound
  have ha := h.asleep
  obtain ⟨hasleep, hthread⟩ := hm.settled h.settled hok
  refine ⟨?_, hb, hasleep, hthread⟩
  simp only [tokens, raised, gets, sleepers, total_update] at hb ⊢
  simp only [tokens, raised, gets, sleepers, total_eq _ _ i] at hv hb₀ ha
  cases hm with
  | keeps he hu =>
    rw [he, hu.raised, hu.gets, hu.asleep]
    exact hv
  | raises hpos he hr hg hs =>
    rw [hr, hg] at hb
    rw [he, hr, hg, hs, narrow32_eq (by omega) (by omega)]
    omega
  | takes hpos he hr hg hs =>
    have he' : o.1.value = s.event.value - 1 := by
      rcases he with he | he
      · rw [he, narrow32_eq (by omega) (by omega)]
      · exact he
    rw [he', hr, hg, hs]
    omega
  | sleeps hneg he hr hg hs =>
    rw [he, hr, hg, hs]
    omega
  | leaves he hr hg hs =>
    rw [he, hr, hg]
    omega

/-- What a signal does: a null one ends its put, the others raise the value as well and grant the
get of a sleeper. -/
theorem signal_cases {s s' : State ι} {i : ι} {sigval : ℤ} {wakes : Option ι}
    (hpc : (s.thread i).pc = .putSignal sigval) (hs : signal s i sigval wakes = some s') :
    (sigval = 0 ∧ s' = { s with thread := Function.update s.thread i (s.thread i).posted }) ∨
    (sigval ≠ 0 ∧ s'.event = { s.event with value := s.event.value + 1 } ∧
      ((sleepers s = 0 ∧ s'.thread = Function.update s.thread i (s.thread i).served) ∨
        ∃ j, i ≠ j ∧ (s.thread j).pc = .sleep ∧ s'.thread =
          Function.update (Function.update s.thread i (s.thread i).served) j
            (s.thread j).granted)) := by
  by_cases hz : sigval = 0
  · subst hz
    simp only [signal, if_true] at hs
    split_ifs at hs with hw
    cases hs
    exact .inl ⟨rfl, rfl⟩
  simp only [signal, if_neg hz] at hs
  refine .inr ⟨hz, ?_⟩
  cases wakes with
  | none =>
    split_ifs at hs with hn
    cases hs
    refine ⟨rfl, .inl ⟨?_, rfl⟩⟩
    simp only [sleepers, total, Finset.sum_eq_zero_iff, Thread.asleep]
    exact fun j _ => if_neg (hn j)
  | some j =>
    simp only [Option.ite_none_right_eq_some, Option.some.injEq] at hs
    obtain ⟨hj, rfl⟩ := hs
    refine ⟨rfl, .inr ⟨j, ?_, hj, rfl⟩⟩
    rintro rfl
    simp [hpc] at hj

section Served

variable {s s' : State ι} {i : ι} {sigval : ℤ} {wakes : Option ι}

theorem signal_settled (h : Settled s) (hpc : (s.thread i).pc = .putSignal sigval)
    (hs : signal s i sigval wakes = some s') : Settled s' := by
  have ha := h.asleep
  obtain ⟨hi, hi', hi''⟩ := served_asleep hpc
  rcases signal_cases hpc hs with ⟨rfl, rfl⟩ | ⟨hz, he, hcases⟩
  · have ht : (s.thread i).pending = 1 := by simp [Thread.pending, hpc]
    refine ⟨?_, ok_update h.thread (posted_ok (h.thread i) ht)⟩
    simp only [sleepers, total_update]
    simp only [sleepers, total_eq _ _ i] at ha
    omega
  have hval : s'.event.value = s.event.value + 1 := by rw [he]
  have hok := ok_update (i := i) h.thread (served_ok (h.thread i) hpc hz)
  rcases hcases with ⟨hnone, ht⟩ | ⟨j, hij, hj, ht⟩
  · constructor
    · simp only [sleepers, ht, total_update]
      simp only [sleepers, total_eq _ _ i] at hnone
      omega
    · rw [ht]
      exact hok
  · obtain ⟨hjs, hjs'⟩ := granted_asleep hj
    have hsl := total_update_two Thread.asleep s.thread hij (s.thread i).served (s.thread j).granted
    constructor
    · simp only [sleepers, ht] at ha ⊢
      intro hpos
      have := ha (by omega)
      omega
    · rw [ht]
      exact ok_update (s := ⟨s.event, _⟩) hok
        (granted_ok (h.thread j) (by simp [Thread.pending, hj]))

/-- A signal raises the value and completes the put; it grants the get of a sleeper. -/
theorem signal_inv (h : Inv initval s) (hpc : (s.thread i).pc = .putSignal sigval)
    (hs : signal s i sigval wakes = some s') (hb : tokens initval s' < 2 ^ 31) :
    Inv initval s' := by
  have hv := h.value
  have hset := signal_settled h.settled hpc hs
  refine ⟨?_, hb, hset.asleep, hset.thread⟩
  obtain ⟨hi, hi', hi''⟩ := served_asleep hpc
  have hir : (s.thread i).served.raised = (s.thread i).raised + 1 := rfl
  have hig : (s.thread i).served.gets = (s.thread i).gets := rfl
  rcases signal_cases hpc hs with ⟨rfl, rfl⟩ | ⟨hz, he, hcases⟩
  · simp only [tokens, raised, gets, sleepers, total_update]
    simp only [tokens, raised, gets, sleepers, total_eq _ _ i] at hv
    rw [hi'', hi] at *
    exact hv
  have hval : s'.event.value = s.event.value + 1 := by rw [he]
  rcases hcases with ⟨hnone, ht⟩ | ⟨j, hij, hj, ht⟩
  · simp only [tokens, raised, gets, sleepers, ht, total_update]
    simp only [tokens, raised, gets, sleepers, total_eq _ _ i] at hv hnone
    omega
  · obtain ⟨hjs, hjs'⟩ := granted_asleep hj
    have hjr : (s.thread j).granted.raised = (s.thread j).raised := rfl
    have hjg : (s.thread j).granted.gets = (s.thread j).gets + 1 := rfl
    have hr := total_update_two Thread.raised s.thread hij (s.thread i).served (s.thread j).granted
    have hg := total_update_two Thread.gets s.thread hij (s.thread i).served (s.thread j).granted
    have hsl := total_update_two Thread.asleep s.thread hij (s.thread i).served (s.thread j).granted
    simp only [tokens, raised, gets, sleepers, ht] at hv ⊢
    omega

end Served

/-- The steps of one thread, in the kernel or out of it. -/
theorem step_thread_cases {s s' : State ι} {i : ι} {a : Act ι} (hs : step s (.thread i a) = some s') :
    (∃ sigval wakes, a = .signal wakes ∧ (s.thread i).pc = .putSignal sigval ∧
      signal s i sigval wakes = some s') ∨
    ∃ o, threadStep s.event (s.thread i) a = some o ∧
      s' = ⟨o.1, Function.update s.thread i o.2⟩ := by
  cases a with
  | signal wakes =>
    simp only [step] at hs
    split at hs
    · exact .inl ⟨_, wakes, rfl, ‹_›, hs⟩
    · cases hs
  | _ =>
    obtain ⟨o, ho, rfl⟩ := Option.map_eq_some_iff.mp hs
    exact .inr ⟨o, ho, rfl⟩

theorem step_inv {s s' : State ι} {l : Label ι} (h : Inv initval s) (hs : Step initval s l s') :
    Inv initval s' := by
  obtain ⟨hs, hb⟩ := hs
  cases l with
  | pollrefs n =>
    cases hs
    exact ⟨h.value, h.bound, h.asleep, h.thread⟩
  | thread i a =>
    rcases step_thread_cases hs with ⟨sigval, wakes, -, hpc, hs⟩ | ⟨o, ho, rfl⟩
    · exact signal_inv h hpc hs hb
    · obtain ⟨hm, hok⟩ := threadStep_moved (h.thread i) ho
      exact hm.inv h hok hb

section Turns

/-- The thread is in `evl_put_sem`. -/
def Pc.inPut : Pc → Bool
  | .putLoad | .putPolled _ | .putCas _ | .putRecheck | .putSignal _ => true
  | _ => false

/-- The thread is in `evl_tryget_sem` or `evl_timedget_sem`. -/
def Pc.inGet : Pc → Bool
  | .getLoad _ | .getCas .. | .wait | .sleep => true
  | _ => false

@[simp] theorem Pc.inPut_idle : Pc.idle.inPut = false := rfl

theorem Pc.not_both (pc : Pc) : pc.inPut = false ∨ pc.inGet = false := by
  cases pc <;> simp [Pc.inPut, Pc.inGet]

def Thread.putting (t : Thread) : ℕ := if t.pc.inPut then 1 else 0

def Act.callsPut : Act ι → Bool
  | .call .put _ => true
  | _ => false

/-- What the thread `i` does in a turn, if it is its turn. -/
def turnOf (i : ι) (τ : Turn (State ι) (Label ι)) : Option (Act ι) :=
  match τ.label with
  | .thread j a => if j = i then some a else none
  | .pollrefs _ => none

/-- The thread `i` calls `evl_put_sem`. -/
def putCall (i : ι) (τ : Turn (State ι) (Label ι)) : Bool := (turnOf i τ).any Act.callsPut

/-- The thread `i` comes back from `evl_put_sem`. -/
def putReturn (i : ι) (τ : Turn (State ι) (Label ι)) : Bool :=
  (τ.before.thread i).pc.inPut && (τ.after.thread i).pc = .idle

/-- The thread `i` raises the value in `evl_put_sem`. -/
def putRaise (i : ι) (τ : Turn (State ι) (Label ι)) : Bool :=
  (turnOf i τ).isSome && (τ.before.thread i).pc.inPut &&
    τ.after.event.value = τ.before.event.value + 1

/-- The thread `i` comes back from a get with a token. -/
def getGrant (i : ι) (τ : Turn (State ι) (Label ι)) : Bool :=
  (τ.before.thread i).pc.inGet && (τ.after.thread i).pc = .idle && (τ.after.thread i).ret = .ok

/-- What happens to the counts of a thread when it goes from one place to another. -/
structure Tally (t : Thread) (called : Bool) (t' : Thread) : Prop where
  puts : t'.puts = t.puts + (t.pc.inPut && t'.pc = .idle).toNat
  gets : t'.gets = t.gets + (t.pc.inGet && t'.pc = .idle && t'.ret = .ok).toNat
  putting : t'.putting + (t.pc.inPut && t'.pc = .idle).toNat = t.putting + called.toNat
  raised : t.pc.inPut = false → t'.raised = t.raised
  once : t'.raised = t.raised ∨ t'.raised = t.raised + 1
  asleep : t.pc.inPut = true → t'.asleep = 0

omit [Fintype ι] [DecidableEq ι] in
/-- Nothing happens to a thread. -/
theorem Tally.refl (t : Thread) : Tally t false t := by
  have hput : (t.pc.inPut && decide (t.pc = .idle)) = false := by
    cases t.pc <;> rfl
  have hget : (t.pc.inGet && decide (t.pc = .idle) && decide (t.ret = .ok)) = false := by
    cases t.pc <;> rfl
  refine ⟨by rw [hput]; rfl, by rw [hget]; rfl, by rw [hput], fun _ => rfl, .inl rfl, fun h => ?_⟩
  refine if_neg fun hs => ?_
  rw [hs] at h
  cases h

section Threads

variable {t : Thread} {e : Event} {f : Fn} {val : ℤ}

omit [Fintype ι] [DecidableEq ι]

/-- A thread goes on within its call, or to the first step of one. -/
theorem Tally.goto {pc : Pc} (hpc : pc ≠ .idle) (hput : pc.inPut = t.pc.inPut) :
    Tally t false { t with pc := pc } := by
  refine ⟨by simp [hpc], by simp [hpc], by simp [Thread.putting, hpc, hput], fun _ => rfl,
    .inl rfl, fun h => if_neg fun hs => ?_⟩
  rw [← hput, show pc = .sleep from hs] at h
  cases h

theorem Tally.returns {r : Ret} (hput : t.pc.inPut = false) (hr : r ≠ .ok) :
    Tally t false (t.returns r) := by
  refine ⟨by simp [Thread.returns, hput], by simp [Thread.returns, hr], ?_, fun _ => rfl, .inl rfl,
    fun h => by simp [hput] at h⟩
  simp [Thread.putting, Thread.returns, hput]

theorem Tally.granted (hget : t.pc.inGet = true) : Tally t false t.granted := by
  have hput : t.pc.inPut = false := t.pc.not_both.resolve_right (by simp [hget])
  refine ⟨by simp [Thread.granted, Thread.returns, hput],
    by simp [Thread.granted, Thread.returns, hget], ?_, fun _ => rfl, .inl rfl,
    fun h => by simp [hput] at h⟩
  simp [Thread.putting, Thread.granted, Thread.returns, hput]

theorem Tally.posted (hput : t.pc.inPut = true) : Tally t false t.posted := by
  have hget : t.pc.inGet = false := t.pc.not_both.resolve_left (by simp [hput])
  refine ⟨by simp [Thread.posted, Thread.returns, hput],
    by simp [Thread.posted, Thread.returns, hget], ?_, fun _ => rfl, .inl rfl, fun _ => ?_⟩
  · simp [Thread.putting, Thread.posted, Thread.returns, hput]
  · simp [Thread.asleep, Thread.posted, Thread.returns]

theorem Tally.served (hput : t.pc.inPut = true) : Tally t false t.served := by
  have h := Tally.posted hput
  exact ⟨h.puts, h.gets, h.putting, fun hno => by simp [hput] at hno, .inr rfl,
    h.asleep⟩

theorem tryGet_tally (hget : t.pc.inGet = true) : Tally t false (tryGet f t val) := by
  have hput : t.pc.inPut = false := t.pc.not_both.resolve_right (by simp [hget])
  unfold tryGet
  split_ifs
  · exact .goto (by simp) hput.symm
  · exact .returns hput (by simp)
  · exact .goto (by simp) hput.symm

theorem retryPut_tally (hput : t.pc.inPut = true) : Tally t false (retryPut t val) := by
  unfold retryPut
  split_ifs
  · exact .goto (by simp) hput.symm
  · exact .goto (by simp) hput.symm

theorem enter_tally (c : Caller) (hpc : t.pc = .idle) :
    Tally t ((Act.call f c : Act ι).callsPut) (enter f c t) := by
  cases f with
  | put =>
    refine ⟨by simp [enter], by simp [enter], ?_, fun _ => rfl, .inl rfl, fun _ => rfl⟩
    simp [enter, Thread.putting, hpc, Pc.inPut, Act.callsPut]
  | tryget => exact .goto (by simp) (by rw [hpc]; rfl)
  | timedget =>
    simp only [enter]
    split_ifs
    · exact .goto (by simp) (by rw [hpc]; rfl)
    · exact .goto (by simp) (by rw [hpc]; rfl)
    · exact .returns (by rw [hpc]; rfl) (by simp)

/-- What the counts of a thread tell about its step. -/
theorem threadStep_tally {a : Act ι} {o : Event × Thread} (ho : threadStep e t a = some o) :
    Tally t a.callsPut o.2 := by
  cases a with
  | call f c =>
    simp only [threadStep] at ho
    split_ifs at ho with hpc
    cases ho
    exact enter_tally c hpc
  | go =>
    cases hpc : t.pc with
    | idle => simp [threadStep, hpc] at ho
    | putLoad =>
      simp only [threadStep, hpc] at ho
      split_ifs at ho <;> cases ho <;> exact .goto (by simp) (by rw [hpc]; rfl)
    | putPolled val =>
      simp only [threadStep, hpc] at ho
      split_ifs at ho <;> cases ho <;> exact .goto (by simp) (by rw [hpc]; rfl)
    | putCas val =>
      simp only [threadStep, hpc] at ho
      split_ifs at ho
      · cases ho
        have h : Tally t false { t with pc := .putRecheck } := .goto (by simp) (by rw [hpc]; rfl)
        exact ⟨h.puts, h.gets, h.putting, fun hno => by simp [hpc, Pc.inPut] at hno, .inr rfl,
          h.asleep⟩
      · cases ho
        exact retryPut_tally (by rw [hpc]; rfl)
    | putRecheck =>
      simp only [threadStep, hpc] at ho
      split_ifs at ho
      · cases ho
        exact .goto (by simp) (by rw [hpc]; rfl)
      · cases ho
        exact .posted (by rw [hpc]; rfl)
    | putSignal sigval => simp [threadStep, hpc] at ho
    | getLoad f =>
      simp only [threadStep, hpc] at ho
      cases ho
      exact tryGet_tally (by rw [hpc]; rfl)
    | getCas f val =>
      simp only [threadStep, hpc] at ho
      split_ifs at ho
      · cases ho
        exact .granted (by rw [hpc]; rfl)
      · cases ho
        exact tryGet_tally (by rw [hpc]; rfl)
    | wait =>
      simp only [threadStep, hpc] at ho
      split_ifs at ho
      · cases ho
        exact .goto (by simp) (by rw [hpc]; rfl)
      · cases ho
        exact .granted (by rw [hpc]; rfl)
    | sleep => simp [threadStep, hpc] at ho
  | spurious =>
    cases hpc : t.pc with
    | putCas val =>
      simp only [threadStep, hpc] at ho
      split_ifs at ho
      cases ho
      exact retryPut_tally (by rw [hpc]; rfl)
    | getCas f val =>
      simp only [threadStep, hpc] at ho
      split_ifs at ho
      cases ho
      exact tryGet_tally (by rw [hpc]; rfl)
    | _ => simp [threadStep, hpc] at ho
  | signal => cases ho
  | timeout =>
    simp only [threadStep] at ho
    split_ifs at ho with hpc
    cases ho
    exact .returns (by rw [hpc]; rfl) (by simp)

end Threads

section Steps

variable {s s' : State ι} {i k : ι} {l : Label ι}

omit [Fintype ι] in
theorem update_tally {t : Thread} {called : Bool} (h : Tally (s.thread i) called t) (k : ι) :
    Tally (s.thread k) (if i = k then called else false) (Function.update s.thread i t k) := by
  by_cases hk : k = i
  · subst hk
    simpa only [Function.update_self, if_true] using h
  · rw [if_neg (Ne.symm hk), Function.update_of_ne hk]
    exact .refl _

omit [Fintype ι] in
theorem putCall_thread (s s' : State ι) (i k : ι) (a : Act ι) :
    putCall k ⟨s, .thread i a, s'⟩ = if i = k then a.callsPut else false := by
  by_cases hk : i = k
  · simp [putCall, turnOf, hk]
  · simp [putCall, turnOf, hk]

/-- What the counts of every thread tell about a step. -/
theorem step_tally (hs : step s l = some s') (k : ι) :
    Tally (s.thread k) (putCall k ⟨s, l, s'⟩) (s'.thread k) := by
  cases l with
  | pollrefs n =>
    cases hs
    exact .refl _
  | thread i a =>
    rw [putCall_thread]
    rcases step_thread_cases hs with ⟨sigval, wakes, rfl, hpc, hs⟩ | ⟨o, ho, rfl⟩
    · have hput : (s.thread i).pc.inPut = true := by rw [hpc]; rfl
      rcases signal_cases hpc hs with ⟨-, rfl⟩ | ⟨-, -, ⟨-, ht⟩ | ⟨j, hij, hj, ht⟩⟩
      · exact update_tally (.posted hput) k
      · rw [ht]
        exact update_tally (.served hput) k
      · rw [ht]
        by_cases hkj : k = j
        · subst hkj
          rw [Function.update_self, if_neg hij]
          exact .granted (by rw [hj]; rfl)
        · rw [Function.update_of_ne hkj]
          exact update_tally (.served hput) k
    · exact update_tally (threadStep_tally ho) k

/-- Who is not on turn and in a put stays where it is. -/
theorem step_others (hs : step s l = some s') (hk : turnOf k ⟨s, l, s'⟩ = none)
    (hput : (s.thread k).pc.inPut = true) : s'.thread k = s.thread k := by
  cases l with
  | pollrefs n =>
    cases hs
    rfl
  | thread i a =>
    have hki : k ≠ i := by
      rintro rfl
      simp [turnOf] at hk
    rcases step_thread_cases hs with ⟨sigval, wakes, rfl, hpc, hs⟩ | ⟨o, ho, rfl⟩
    · rcases signal_cases hpc hs with ⟨-, rfl⟩ | ⟨-, -, ⟨-, ht⟩ | ⟨j, hij, hj, ht⟩⟩
      · exact Function.update_of_ne hki _ _
      · rw [ht, Function.update_of_ne hki]
      · have hkj : k ≠ j := by
          rintro rfl
          simp [hj, Pc.inPut] at hput
        rw [ht, Function.update_of_ne hkj, Function.update_of_ne hki]
    · exact Function.update_of_ne hki _ _

/-- A thread in a put counts a raise exactly when the value goes up. -/
theorem put_value {a : Act ι} (h : Inv initval s) (h' : Inv initval s')
    (hs : step s (.thread i a) = some s') (hput : (s.thread i).pc.inPut = true) :
    s'.event.value + (s.thread i).raised = s.event.value + (s'.thread i).raised := by
  rcases step_thread_cases hs with ⟨sigval, wakes, rfl, hpc, hsig⟩ | ⟨o, ho, rfl⟩
  · rcases signal_cases hpc hsig with ⟨-, rfl⟩ | ⟨-, he, ⟨-, ht⟩ | ⟨j, hij, hj, ht⟩⟩
    · simp [Thread.posted, Thread.returns]
    · rw [he, ht, Function.update_self]
      simp only [Thread.served]
      omega
    · rw [he, ht, Function.update_of_ne hij, Function.update_self]
      simp only [Thread.served]
      omega
  · have htally := threadStep_tally ho
    have hv := h.value
    have hv' := h'.value
    have hgets := htally.gets
    have hasleep := htally.asleep hput
    have hget : (s.thread i).pc.inGet = false := (s.thread i).pc.not_both.resolve_left (by simp [hput])
    have hsleep : (s.thread i).asleep = 0 := if_neg fun hpc => by simp [hpc, Pc.inPut] at hput
    simp only [tokens, raised, gets, sleepers, total_update] at hv'
    simp only [tokens, raised, gets, sleepers, total_eq _ _ i] at hv
    simp only [hget, Bool.false_and, Bool.toNat_false, Nat.add_zero] at hgets
    simp only [Function.update_self]
    omega

theorem raise_tally (h : Inv initval s) (hs : Step initval s l s') (k : ι) :
    (s'.thread k).raised = (s.thread k).raised + (putRaise k ⟨s, l, s'⟩).toNat := by
  have htally := step_tally hs.1 k
  unfold putRaise
  cases hput : (s.thread k).pc.inPut with
  | false => simpa using htally.raised hput
  | true =>
    cases hk : turnOf k ⟨s, l, s'⟩ with
    | none => simpa using congrArg Thread.raised (step_others hs.1 hk hput)
    | some a =>
      cases l with
      | pollrefs n => cases hk
      | thread i b =>
        obtain rfl : i = k := by
          by_contra hne
          simp [turnOf, hne] at hk
        have hvalue := put_value h (step_inv h hs) hs.1 hput
        rcases htally.once with hr | hr
        · have hne : s'.event.value ≠ s.event.value + 1 := by omega
          simp [hr, hne]
        · have he : s'.event.value = s.event.value + 1 := by omega
          simp [hr, he]

end Steps

/-- The account of a run, by its steps: every put that is over has raised the value once, a put in
progress at most once, and nobody sleeps while the value is positive. -/
structure Counted (initval : ℤ) (ts : List (Turn (State ι) (Label ι))) (s : State ι) : Prop where
  value : s.event.value = initval + (∑ i, ts.countP (putRaise i) : ℕ) -
    (∑ i, ts.countP (getGrant i) : ℕ) - sleepers s
  calls : ∀ i, ts.countP (putCall i) = ts.countP (putReturn i) + (s.thread i).putting
  raises : ∀ i, ts.countP (putRaise i) = ts.countP (putReturn i) + (s.thread i).pending
  awake : 0 < s.event.value → sleepers s = 0

/-- The counts of the threads are those of the steps. -/
structure Tallied (ts : List (Turn (State ι) (Label ι))) (s : State ι) : Prop where
  puts : ∀ i, (s.thread i).puts = ts.countP (putReturn i)
  gets : ∀ i, (s.thread i).gets = ts.countP (getGrant i)
  raised : ∀ i, (s.thread i).raised = ts.countP (putRaise i)
  calls : ∀ i, ts.countP (putCall i) = ts.countP (putReturn i) + (s.thread i).putting

theorem countP_concat {α : Type*} (p : α → Bool) (xs : List α) (x : α) :
    (xs ++ [x]).countP p = xs.countP p + (p x).toNat := by
  rw [List.countP_append, List.countP_singleton]
  cases p x <;> rfl

theorem Tallied.step {ts : List (Turn (State ι) (Label ι))} {s s' : State ι} {l : Label ι}
    (hI : Inv initval s) (h : Tallied ts s) (hs : Step initval s l s') :
    Tallied (ts ++ [⟨s, l, s'⟩]) s' where
  puts i := by
    rw [countP_concat, ← h.puts]
    exact (step_tally hs.1 i).puts
  gets i := by
    rw [countP_concat, ← h.gets]
    exact (step_tally hs.1 i).gets
  raised i := by
    rw [countP_concat, ← h.raised]
    exact raise_tally hI hs i
  calls i := by
    have hstep := (step_tally hs.1 i).putting
    have hcalls := h.calls i
    simp only [countP_concat, putReturn]
    omega

theorem history_tallied {ts : List (Turn (State ι) (Label ι))} {s : State ι} (hn : initval < 2 ^ 31)
    (h : History (Step initval) (· = initial ι initval) ts s) : Inv initval s ∧ Tallied ts s := by
  induction h with
  | init h =>
    subst h
    exact ⟨initial_inv hn, fun _ => rfl, fun _ => rfl, fun _ => rfl, fun _ => rfl⟩
  | step _ hs ih => exact ⟨step_inv ih.1 hs, ih.2.step ih.1 hs⟩

theorem history_counted {ts : List (Turn (State ι) (Label ι))} {s : State ι} (hn : initval < 2 ^ 31)
    (h : History (Step initval) (· = initial ι initval) ts s) : Counted initval ts s := by
  obtain ⟨hI, ht⟩ := history_tallied hn h
  refine ⟨?_, ht.calls, fun i => ?_, fun hpos => ?_⟩
  · simp only [← ht.raised, ← ht.gets]
    exact hI.value
  · rw [← ht.raised, ← ht.puts]
    exact (hI.thread i).once
  · have ha := hI.asleep
    omega

end Turns

theorem Thread.pending_eq_zero {t : Thread} (h : t.pc.inPut = false) : t.pending = 0 := by
  refine if_neg fun hpc => ?_
  rcases hpc with hpc | hpc <;> simp [hpc, Pc.inPut] at h

/-- Tokens are counted once: the value is the initial one, the raises of the puts less the granted
gets and the sleepers; between any two moments at which a thread is in no put it has raised the value
once for every call, all of which came back; nobody sleeps while the value is positive. -/
theorem counted_once {ts : List (Turn (State ι) (Label ι))} {s : State ι} (hn : initval < 2 ^ 31)
    (h : History (Step initval) (· = initial ι initval) ts s) :
    Counted initval ts s ∧ ∀ i us vs t, ts = us ++ vs →
      History (Step initval) (· = initial ι initval) us t →
      (t.thread i).pc.inPut = false → (s.thread i).pc.inPut = false →
        vs.countP (putRaise i) = vs.countP (putCall i) ∧
          vs.countP (putReturn i) = vs.countP (putCall i) := by
  have hc := history_counted hn h
  refine ⟨hc, ?_⟩
  rintro i us vs t rfl hus hi hi'
  have hc' := history_counted hn hus
  have hcalls := hc.calls i
  have hcalls' := hc'.calls i
  have hraises := hc.raises i
  have hraises' := hc'.raises i
  rw [Thread.pending_eq_zero hi] at hraises'
  rw [Thread.pending_eq_zero hi'] at hraises
  rw [Thread.putting, hi, if_neg Bool.false_ne_true] at hcalls'
  rw [Thread.putting, hi', if_neg Bool.false_ne_true] at hcalls
  simp only [List.countP_append] at hcalls hraises
  omega

/-- A call and the number of its further steps. -/
def does {n : ℕ} (i : Fin n) (f : Fn) (c : Caller) (k : ℕ) : List (Label (Fin n)) :=
  .thread i (.call f c) :: List.replicate k (.thread i .go)

/-- One thread waits for a token. The other one puts two, the first through the kernel. -/
def servedRun : List (Label (Fin 2)) :=
  does 0 .timedget ⟨true, false, false⟩ 2 ++ does 1 .put ⟨true, false, false⟩ 1 ++
    [.thread 1 (.signal (some 0))] ++ does 1 .put ⟨true, false, false⟩ 4

/-- The sleeper gets the first token, and the second one stays. -/
theorem counted_once_served : ∃ ts s,
    turns (guarded 0) (initial (Fin 2) 0) servedRun = some (ts, s) ∧
    s.event.value = 1 ∧ sleepers s = 0 ∧ ts.countP (getGrant 0) = 1 ∧ ts.countP (putCall 1) = 2 ∧
      ts.countP (putRaise 1) = 2 ∧ Counted 0 ts s := by
  have hrun : ((turns (guarded 0) (initial (Fin 2) 0) servedRun).map fun r =>
      (r.2.event.value, sleepers r.2, r.1.countP (getGrant 0), r.1.countP (putCall 1),
        (r.2.thread 1).pc.inPut)) = some (1, 0, 1, 2, false) := by decide
  obtain ⟨⟨ts, s⟩, hs, hfacts⟩ := Option.map_eq_some_iff.mp hrun
  simp only [Prod.mk.injEq] at hfacts
  obtain ⟨hvalue, hsleep, hget, hcall, hidle⟩ := hfacts
  have hinit : History (Step 0) (· = initial (Fin 2) 0) [] (initial (Fin 2) 0) := .init rfl
  have hhistory := history_of_turns (fun _ _ _ => step_of_guarded) hinit hs
  obtain ⟨hcounted, honce⟩ := counted_once (by decide : (0 : ℤ) < 2 ^ 31) hhistory
  have hraise := (honce 1 [] ts _ rfl hinit rfl hidle).1
  exact ⟨ts, s, hs, hvalue, hsleep, hget, hcall, hraise.trans hcall, hcounted⟩

end Libevl.Sem
