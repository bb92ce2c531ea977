import Libevl.MutexLock

/-!
# Events and the mutex around them

A thread that owns a mutex may wait for an event, which releases the mutex until
the thread is back. Signals are flags, of the event and of the mutex it is used
with. Nobody looks at them but the kernel, when it is asked to release the mutex.
So a mutex must not be released in user space as long as there is a signal.
-/
namespace Libevl.Event
open LockedObject Transition

/-- The state of an event that is shared with the kernel: whether there is a gate offset, and
`EVL_MONITOR_SIGNALED` and `EVL_MONITOR_BROADCAST`. -/
structure Shared where
  gated : Bool
  signaled : Bool
  broadcast : Bool
  deriving DecidableEq, Repr

/-- What `evl_timedwait_event` returns, where `error` stands for the other errors. -/
inductive Ret
  | ok | intr | perm | idrm | error
  deriving DecidableEq, Repr

/-- Where a thread stands in a call about an event. -/
inductive Pc (κ : Type*)
  | none
  | readGate (e : κ) (bcast : Bool)
  | raiseGate (e : κ) (bcast : Bool)
  | loadFlags (e : κ) (bcast : Bool)
  | storeFlags (e : κ) (bcast : Bool) (broadcast : Bool)
  | wait (e : κ)
  | waiting (e : κ)
  | unwait (ret : Ret)
  deriving DecidableEq, Repr

/-- The mutex and events used with it. A thread uses the mutex as `use` says; `posted` are the
signals since the last request to release it, and whether there was a broadcast among them. -/
structure State (ι κ : Type*) where
  lock : Mutex.State ι
  event : κ → Shared
  pc : ι → Pc κ
  ret : ι → Ret
  use : ι → Use
  posted : κ → Option Bool

/-- The flags that the kernel leaves behind. -/
structure Left (κ : Type*) where
  gate : Bool
  event : κ → Bool × Bool

/-- The calls of the threads and their steps, and the requests as they succeed or fail. -/
inductive Act (ι κ : Type*)
  | lock (i : ι) (mode : Mutex.Mode)
  | unlock (i : ι) (mode : Mutex.Mode)
  | inner (l : Mutex.Label ι)
  | exit (i : ι) (k : Left κ)
  | back (i : ι)
  | signal (i : ι) (e : κ) (bcast : Bool)
  | wait (i : ι) (e : κ)
  | go (i : ι)
  | suspend (i : ι) (k : Left κ)
  | resume (i : ι)
  | fail (i : ι) (ret : Ret)
  | ungate (e : κ)

section Steps

variable {ι κ : Type*} [DecidableEq ι] [DecidableEq κ]

/-- A step of `evl_lock_mutex` or `evl_unlock_mutex`, but for the request to release. -/
def inside (m : Mutex.State ι) : Mutex.Label ι → Bool
  | .thread i .go => (m.thread i).pc ≠ .exit
  | .signaled _ => false
  | l => l.inner

/-- The kernel has seen the flags. -/
def State.take (s : State ι κ) (k : Left κ) : State ι κ :=
  { s with
    lock := { s.lock with gate := { s.lock.gate with signaled := k.gate } }
    event := fun e => ⟨(s.event e).gated, (k.event e).1, (k.event e).2⟩
    posted := fun _ => none }

/-- The thread returns from a call. -/
def State.returns (s : State ι κ) (i : ι) (r : Ret) : State ι κ :=
  { s with pc := Function.update s.pc i .none, ret := Function.update s.ret i r }

def State.at (s : State ι κ) (i : ι) (pc : Pc κ) : State ι κ :=
  { s with pc := Function.update s.pc i pc }

def State.uses (s : State ι κ) (i : ι) (u : Use) : State ι κ :=
  { s with use := Function.update s.use i u }

/-- The kernel changes the owner. -/
def State.owned (s : State ι κ) (owner : Option ι) : State ι κ :=
  { s with lock := { s.lock with gate := { s.lock.gate with owner := owner, claimed := false } } }

/-- A step of `evl_signal_event` or `evl_broadcast_event`. -/
def State.signalStep (s : State ι κ) (i : ι) : Option (State ι κ) :=
  match s.pc i with
  | .readGate e bcast =>
    if (s.event e).gated then some (s.at i (.raiseGate e bcast)) else some (s.returns i .ok)
  | .raiseGate e bcast =>
    some { s.at i (.loadFlags e bcast) with
      lock := { s.lock with gate := { s.lock.gate with signaled := true } } }
  | .loadFlags e bcast => some (s.at i (.storeFlags e bcast (s.event e).broadcast))
  | .storeFlags e bcast broadcast =>
    some { s.returns i .ok with
      event := Function.update s.event e ⟨(s.event e).gated, true, broadcast || bcast⟩
      posted := Function.update s.posted e (some ((s.posted e).getD false || bcast)) }
  | _ => none

/-- `EVL_MONIOC_WAIT` releases the mutex and blocks. -/
def State.suspend (s : State ι κ) (i : ι) (k : Left κ) : Option (State ι κ) :=
  match s.pc i with
  | .wait e =>
    if s.lock.gate.owner = some i then
      let t := ((s.take k).owned none).at i (.waiting e)
      some { t.uses i .out with
        event := Function.update t.event e { t.event e with gated := true } }
    else none
  | _ => none

/-- `EVL_MONIOC_WAIT` or `EVL_MONIOC_UNWAIT` comes back with the mutex. -/
def State.resume (s : State ι κ) (i : ι) : Option (State ι κ) :=
  match s.pc i with
  | .waiting _ =>
    if s.lock.gate.owner = none then some (((s.owned (some i)).returns i .ok).uses i .inside)
    else none
  | .unwait r =>
    if s.lock.gate.owner = none then
      some (((s.owned (some i)).returns i (if r = .intr then .ok else r)).uses i .inside)
    else if s.lock.gate.owner = some i then
      some ((s.returns i (if r = .intr then .ok else r)).uses i .inside)
    else none
  | _ => none

/-- `EVL_MONIOC_WAIT` fails, before it has released the mutex or later on, or
`EVL_MONIOC_UNWAIT` does, which is issued again if it was interrupted. -/
def State.fail (s : State ι κ) (i : ι) (ret : Ret) : Option (State ι κ) :=
  if ret = .ok then none
  else
    match s.pc i with
    | .wait _ | .waiting _ =>
      if ret = .idrm ∨ ret = .perm then some (s.returns i ret) else some (s.at i (.unwait ret))
    | .unwait r =>
      if ret = .intr then some s else some (s.returns i (if r = .intr then .ok else r))
    | _ => none

/-- One step. A thread locks the mutex when it is out, and does the rest when it owns it. -/
def step [Fintype ι] (s : State ι κ) : Act ι κ → Option (State ι κ)
  | .lock i mode =>
    if s.use i = .out ∧ s.pc i = .none then
      (Mutex.step s.lock (.thread i (.lock .timedlock mode))).map fun m =>
        { s.uses i .locking with lock := m }
    else none
  | .unlock i mode =>
    if s.use i = .inside ∧ s.pc i = .none then
      (Mutex.step s.lock (.thread i (.unlock mode))).map fun m =>
        { s.uses i .leaving with lock := m }
    else none
  | .inner l =>
    if inside s.lock l then (Mutex.step s.lock l).map fun m => { s with lock := m } else none
  | .exit i k =>
    if (s.lock.thread i).pc = .exit then
      (Mutex.step s.lock (.thread i .go)).map fun m => { s with lock := m }.take k
    else none
  | .back i =>
    if (s.lock.thread i).pc = .idle then
      match s.use i with
      | .locking => some (s.uses i (if (s.lock.thread i).ret = .ok then .inside else .out))
      | .leaving => some (s.uses i .out)
      | _ => none
    else none
  | .signal i e bcast =>
    if s.use i = .inside ∧ s.pc i = .none then some (s.at i (.readGate e bcast)) else none
  | .wait i e =>
    if s.use i = .inside ∧ s.pc i = .none then some (s.at i (.wait e)) else none
  | .go i => s.signalStep i
  | .suspend i k => s.suspend i k
  | .resume i => s.resume i
  | .fail i ret => s.fail i ret
  | .ungate e =>
    if ∀ j, s.pc j ≠ .waiting e then
      some { s with event := Function.update s.event e { s.event e with gated := false } }
    else none

end Steps

/-- A new mutex without `EVL_MUTEX_RECURSIVE`, and events that nobody waits for. -/
def initial (ι κ : Type*) (protocol : Mutex.Protocol) : State ι κ where
  lock := Mutex.initial ι false protocol
  event := fun _ => ⟨false, false, false⟩
  pc := fun _ => .none
  ret := fun _ => .ok
  use := fun _ => .out
  posted := fun _ => none

section Invariant

variable {ι κ : Type*} {s s' : State ι κ} {i j : ι} {e : κ}

/-- What a thread in a call about an event knows. -/
def Knows (s : State ι κ) (i : ι) : Pc κ → Prop
  | .none => True
  | .readGate .. | .raiseGate .. | .wait _ => s.use i = .inside
  | .loadFlags .. => s.use i = .inside ∧ s.lock.gate.signaled = true
  | .storeFlags e _ broadcast => s.use i = .inside ∧ s.lock.gate.signaled = true ∧
      ((s.event e).broadcast = true → broadcast = true)
  | .waiting e => s.use i = .out ∧ (s.event e).gated = true
  | .unwait _ => s.use i = .out ∨ s.use i = .inside

/-- A signal, or a broadcast, which the flags show. -/
structure Shown (s : State ι κ) (e : κ) (bcast : Bool) : Prop where
  gate : s.lock.gate.signaled = true
  signaled : (s.event e).signaled = true
  broadcast : bcast = true → (s.event e).broadcast = true

structure Inv [DecidableEq ι] (s : State ι κ) : Prop where
  lock : Mutex.LockInv s.use s.lock
  knows : ∀ i, Knows s i (s.pc i)
  shown : ∀ e bcast, s.posted e = some bcast → Shown s e bcast
  held : ∀ e, s.posted e ≠ none → ∃ i, s.lock.gate.owner = some i ∧
    ∀ fast, (s.lock.thread i).pc ≠ .acquired fast
  unlocking : ∀ i, (s.lock.thread i).pc = .fastUnlock → ∀ e, s.posted e = none

/-- A step that leaves the flags alone that a thread relies on. -/
theorem Knows.of {pc : Pc κ} (h : Knows s j pc) (huse : s'.use j = s.use j)
    (hgated : ∀ e, pc = .waiting e → (s.event e).gated = true → (s'.event e).gated = true)
    (hflags : s.use j = .inside →
      (s.lock.gate.signaled = true → s'.lock.gate.signaled = true) ∧
        ∀ e, (s'.event e).broadcast = true → (s.event e).broadcast = true) : Knows s' j pc := by
  cases pc with
  | none => trivial
  | readGate | raiseGate | wait => exact huse.trans h
  | loadFlags => exact ⟨huse.trans h.1, (hflags h.1).1 h.2⟩
  | storeFlags e =>
    exact ⟨huse.trans h.1, (hflags h.1).1 h.2.1, fun hb => h.2.2 ((hflags h.1).2 e hb)⟩
  | waiting e => exact ⟨huse.trans h.1, hgated e rfl h.2⟩
  | unwait => exact h.imp huse.trans huse.trans

section Held

variable [DecidableEq ι]

/-- How a request comes back with the mutex. -/
inductive Resumed (s : State ι κ) (i : ι) : State ι κ → Prop
  | regains (r : Ret) (pc : (∃ e, s.pc i = .waiting e) ∨ ∃ r', s.pc i = .unwait r')
      (owner : s.lock.gate.owner = none) :
      Resumed s i (((s.owned (some i)).returns i r).uses i .inside)
  | keeps (r : Ret) (pc : ∃ r', s.pc i = .unwait r') (owner : s.lock.gate.owner = some i) :
      Resumed s i ((s.returns i r).uses i .inside)

theorem resume_cases (hs : s.resume i = some s') : Resumed s i s' := by
  unfold State.resume at hs
  cases hpc : s.pc i with
  | waiting e =>
    simp only [hpc] at hs
    split_ifs at hs with howner
    cases hs
    exact .regains .ok (.inl ⟨e, hpc⟩) howner
  | unwait r =>
    simp only [hpc] at hs
    by_cases howner : s.lock.gate.owner = none
    · rw [if_pos howner] at hs
      cases hs
      exact .regains _ (.inr ⟨r, hpc⟩) howner
    · rw [if_neg howner] at hs
      by_cases hmine : s.lock.gate.owner = some i
      · rw [if_pos hmine] at hs
        cases hs
        exact .keeps _ ⟨r, hpc⟩ hmine
      · rw [if_neg hmine] at hs
        cases hs
  | _ => simp [hpc] at hs

/-- How a thread goes on after a request that failed. -/
inductive Failed (s : State ι κ) (i : ι) (r : Ret) : State ι κ → Prop
  | gone (pc : (∃ e, s.pc i = .wait e) ∨ ∃ e, s.pc i = .waiting e)
      (ret : r = .idrm ∨ r = .perm) : Failed s i r (s.returns i r)
  | recovers (pc : (∃ e, s.pc i = .wait e) ∨ ∃ e, s.pc i = .waiting e) :
      Failed s i r (s.at i (.unwait r))
  | repeats (r' : Ret) (pc : s.pc i = .unwait r') : Failed s i r s
  | gives (r' r'' : Ret) (pc : s.pc i = .unwait r') : Failed s i r (s.returns i r'')

theorem fail_cases {r : Ret} (hs : s.fail i r = some s') : Failed s i r s' := by
  unfold State.fail at hs
  by_cases hok : r = .ok
  · rw [if_pos hok] at hs
    cases hs
  rw [if_neg hok] at hs
  cases hpc : s.pc i with
  | wait e =>
    simp only [hpc] at hs
    split_ifs at hs with hr
    · cases hs
      exact .gone (.inl ⟨e, hpc⟩) hr
    · cases hs
      exact .recovers (.inl ⟨e, hpc⟩)
  | waiting e =>
    simp only [hpc] at hs
    split_ifs at hs with hr
    · cases hs
      exact .gone (.inr ⟨e, hpc⟩) hr
    · cases hs
      exact .recovers (.inr ⟨e, hpc⟩)
  | unwait ret =>
    simp only [hpc] at hs
    by_cases hintr : r = .intr
    · rw [if_pos hintr] at hs
      cases hs
      exact .repeats ret hpc
    · rw [if_neg hintr] at hs
      cases hs
      exact .gives ret _ hpc
  | _ => simp [hpc] at hs

/-- Each action, with what holds before it. -/
inductive Stepped [DecidableEq κ] (s : State ι κ) : Act ι κ → State ι κ → Prop
  | lock {i : ι} {mode : Mutex.Mode} {m : Mutex.State ι} (use : s.use i = .out)
      (pc : s.pc i = .none)
      (run : Mutex.step s.lock (.thread i (.lock .timedlock mode)) = some m) :
      Stepped s (.lock i mode) { s.uses i .locking with lock := m }
  | unlock {i : ι} {mode : Mutex.Mode} {m : Mutex.State ι} (use : s.use i = .inside)
      (pc : s.pc i = .none)
      (run : Mutex.step s.lock (.thread i (.unlock mode)) = some m) :
      Stepped s (.unlock i mode) { s.uses i .leaving with lock := m }
  | inner {l : Mutex.Label ι} {m : Mutex.State ι} (inside : inside s.lock l = true)
      (run : Mutex.step s.lock l = some m) : Stepped s (.inner l) { s with lock := m }
  | exit {i : ι} {k : Left κ} {m : Mutex.State ι} (pc : (s.lock.thread i).pc = .exit)
      (run : Mutex.step s.lock (.thread i .go) = some m) :
      Stepped s (.exit i k) ({ s with lock := m }.take k)
  | locked {i : ι} (idle : (s.lock.thread i).pc = .idle) (use : s.use i = .locking) :
      Stepped s (.back i) (s.uses i (if (s.lock.thread i).ret = .ok then .inside else .out))
  | unlocked {i : ι} (idle : (s.lock.thread i).pc = .idle) (use : s.use i = .leaving) :
      Stepped s (.back i) (s.uses i .out)
  | signal {i : ι} {e : κ} {bcast : Bool} (use : s.use i = .inside) (pc : s.pc i = .none) :
      Stepped s (.signal i e bcast) (s.at i (.readGate e bcast))
  | wait {i : ι} {e : κ} (use : s.use i = .inside) (pc : s.pc i = .none) :
      Stepped s (.wait i e) (s.at i (.wait e))
  | finds {i : ι} {e : κ} {bcast : Bool} (pc : s.pc i = .readGate e bcast) :
      Stepped s (.go i) (s.at i (.raiseGate e bcast))
  | drops {i : ι} {e : κ} {bcast : Bool} (pc : s.pc i = .readGate e bcast)
      (gated : (s.event e).gated = false) : Stepped s (.go i) (s.returns i .ok)
  | raises {i : ι} {e : κ} {bcast : Bool} (pc : s.pc i = .raiseGate e bcast) :
      Stepped s (.go i) { s.at i (.loadFlags e bcast) with
        lock := { s.lock with gate := { s.lock.gate with signaled := true } } }
  | loads {i : ι} {e : κ} {bcast : Bool} (pc : s.pc i = .loadFlags e bcast) :
      Stepped s (.go i) (s.at i (.storeFlags e bcast (s.event e).broadcast))
  | stores {i : ι} {e : κ} {bcast broadcast : Bool} (pc : s.pc i = .storeFlags e bcast broadcast) :
      Stepped s (.go i) { s.returns i .ok with
        event := Function.update s.event e ⟨(s.event e).gated, true, broadcast || bcast⟩
        posted := Function.update s.posted e (some ((s.posted e).getD false || bcast)) }
  | suspend {i : ι} {k : Left κ} {e : κ} (pc : s.pc i = .wait e)
      (owner : s.lock.gate.owner = some i) :
      Stepped s (.suspend i k) { (((s.take k).owned none).at i (.waiting e)).uses i .out with
        event := Function.update (s.take k).event e { (s.take k).event e with gated := true } }
  | resume {i : ι} {s' : State ι κ} (resumed : Resumed s i s') : Stepped s (.resume i) s'
  | fail {i : ι} {r : Ret} {s' : State ι κ} (failed : Failed s i r s') : Stepped s (.fail i r) s'
  | ungate {e : κ} (unused : ∀ j, s.pc j ≠ .waiting e) :
      Stepped s (.ungate e)
        { s with event := Function.update s.event e { s.event e with gated := false } }

theorem signalStep_cases [DecidableEq κ] (hs : s.signalStep i = some s') :
    Stepped s (.go i) s' := by
  unfold State.signalStep at hs
  cases hpc : s.pc i with
  | readGate e bcast =>
    simp only [hpc] at hs
    split_ifs at hs with hgated
    · cases hs
      exact .finds hpc
    · cases hs
      exact .drops hpc (by simpa using hgated)
  | raiseGate e bcast =>
    simp only [hpc] at hs
    cases hs
    exact .raises hpc
  | loadFlags e bcast =>
    simp only [hpc] at hs
    cases hs
    exact .loads hpc
  | storeFlags e bcast broadcast =>
    simp only [hpc] at hs
    cases hs
    exact .stores hpc
  | _ => simp [hpc] at hs

theorem back_cases [DecidableEq κ] [Fintype ι] (hs : Event.step s (.back i) = some s') :
    Stepped s (.back i) s' := by
  unfold Event.step at hs
  by_cases hidle : (s.lock.thread i).pc = .idle
  · simp only [hidle, if_true] at hs
    cases hu : s.use i with
    | locking =>
      simp only [hu] at hs
      cases hs
      exact .locked hidle hu
    | leaving =>
      simp only [hu] at hs
      cases hs
      exact .unlocked hidle hu
    | _ => simp [hu] at hs
  · simp [hidle] at hs

theorem suspend_cases [DecidableEq κ] {k : Left κ} (hs : s.suspend i k = some s') :
    Stepped s (.suspend i k) s' := by
  unfold State.suspend at hs
  cases hpc : s.pc i with
  | wait e =>
    simp only [hpc] at hs
    split_ifs at hs with howner
    cases hs
    exact .suspend hpc howner
  | _ => simp [hpc] at hs

theorem step_cases [DecidableEq κ] [Fintype ι] {a : Act ι κ} (hs : Event.step s a = some s') :
    Stepped s a s' := by
  cases a with
  | lock i mode =>
    dsimp only [Event.step] at hs
    split_ifs at hs with hc
    obtain ⟨m, hm, rfl⟩ := Option.map_eq_some_iff.mp hs
    exact .lock hc.1 hc.2 hm
  | unlock i mode =>
    dsimp only [Event.step] at hs
    split_ifs at hs with hc
    obtain ⟨m, hm, rfl⟩ := Option.map_eq_some_iff.mp hs
    exact .unlock hc.1 hc.2 hm
  | inner l =>
    dsimp only [Event.step] at hs
    split_ifs at hs with hl
    obtain ⟨m, hm, rfl⟩ := Option.map_eq_some_iff.mp hs
    exact .inner hl hm
  | exit i k =>
    dsimp only [Event.step] at hs
    split_ifs at hs with hpc
    obtain ⟨m, hm, rfl⟩ := Option.map_eq_some_iff.mp hs
    exact .exit hpc hm
  | back i => exact back_cases hs
  | signal i e bcast =>
    dsimp only [Event.step] at hs
    split_ifs at hs with hc
    cases hs
    exact .signal hc.1 hc.2
  | wait i e =>
    dsimp only [Event.step] at hs
    split_ifs at hs with hc
    cases hs
    exact .wait hc.1 hc.2
  | go i => exact signalStep_cases hs
  | suspend i k => exact suspend_cases hs
  | resume i => exact .resume (resume_cases hs)
  | fail i ret => exact .fail (fail_cases hs)
  | ungate e =>
    dsimp only [Event.step] at hs
    split_ifs at hs with hno
    cases hs
    exact .ungate hno

theorem Inv.knows_at {pc : Pc κ} (h : Inv s) (hpc : s.pc i = pc) : Knows s i pc :=
  hpc ▸ h.knows i

theorem Inv.claims_at {u : Use} (h : Inv s) (hu : s.use i = u) :
    Mutex.Claims s.lock.gate i (s.lock.thread i) u :=
  hu ▸ h.lock.claims i

theorem Inv.owner (h : Inv s) (hi : s.use i = .inside) : s.lock.gate.owner = some i :=
  (h.claims_at hi).2

omit [DecidableEq ι] in
/-- Whoever has got the mutex or gives it back owns it. -/
theorem owner_of_claims {g : Mutex.Gate ι} {t : Mutex.Thread} {u : Use}
    (h : Mutex.Claims g i t u)
    (ht : (∃ fast, t.pc = .acquired fast) ∨ t.pc = .fastUnlock ∨ t.pc = .exit) :
    g.owner = some i := by
  cases u with
  | out =>
    rcases ht with ⟨fast, ht⟩ | ht | ht <;> exact absurd (ht.symm.trans h) nofun
  | inside =>
    rcases ht with ⟨fast, ht⟩ | ht | ht <;> exact absurd (ht.symm.trans h.1) nofun
  | locking =>
    unfold Mutex.Claims at h
    dsimp only at h
    split at h
    · rename_i hpc
      rcases ht with ⟨fast, ht⟩ | ht | ht <;> exact absurd (ht.symm.trans hpc) nofun
    · exact h
    · rename_i hpc
      rcases ht with ⟨fast, ht⟩ | ht | ht <;> simp_all
    all_goals simp_all
  | leaving =>
    unfold Mutex.Claims at h
    dsimp only at h
    split at h
    · rename_i hpc
      rcases ht with ⟨fast, ht⟩ | ht | ht <;> exact absurd (ht.symm.trans hpc) nofun
    all_goals simp_all

/-- What a step inside of a call does to the owner and the flag of the mutex. -/
inductive Moves (g : Mutex.Gate ι) (t : Mutex.Thread) (o : Mutex.Gate ι × Mutex.Thread) : Prop
  | keeps (owner : o.1.owner = g.owner) (signaled : o.1.signaled = g.signaled)
      (unlocking : o.2.pc = .fastUnlock → g.signaled = false)
      (acquired : ∀ fast, o.2.pc ≠ .acquired fast)
  | takes (owner : g.owner = none) (signaled : o.1.signaled = g.signaled)
      (unlocking : o.2.pc ≠ .fastUnlock)
  | clears (fast : Bool) (pc : t.pc = .acquired fast) (owner : o.1.owner = g.owner)
      (idle : o.2.pc = .idle)
  | releases (pc : t.pc = .fastUnlock) (owner : o.1.owner = none)
      (signaled : o.1.signaled = g.signaled) (idle : o.2.pc = .idle)

omit [DecidableEq ι] in
theorem Moves.calm {g : Mutex.Gate ι} {t : Mutex.Thread} {o : Mutex.Gate ι × Mutex.Thread}
    (howner : o.1.owner = g.owner) (hsig : o.1.signaled = g.signaled)
    (hpc : o.2.pc ≠ .fastUnlock ∧ ∀ fast, o.2.pc ≠ .acquired fast) : Moves g t o :=
  .keeps howner hsig (fun h => absurd h hpc.1) hpc.2

omit [DecidableEq ι] in
theorem Moves.back {g : Mutex.Gate ι} {t : Mutex.Thread} {o : Mutex.Gate ι × Mutex.Thread}
    (howner : o.1.owner = g.owner) (hsig : o.1.signaled = g.signaled) (hidle : o.2.pc = .idle) :
    Moves g t o :=
  .calm howner hsig (by simp [hidle])

theorem threadStep_moves {g : Mutex.Gate ι} {t : Mutex.Thread} {a : Mutex.Act}
    {o : Mutex.Gate ι × Mutex.Thread} (ha : (Mutex.Label.thread i a).inner = true)
    (hexit : a = .go → t.pc ≠ .exit) (ho : Mutex.threadStep g i t a = some o) : Moves g t o := by
  cases a with
  | lock => cases ha
  | unlock => cases ha
  | go =>
    cases hpc : t.pc with
    | idle => simp [Mutex.threadStep, hpc] at ho
    | fastLock f protect =>
      simp only [Mutex.threadStep, hpc] at ho
      split_ifs at ho with hfree
      · cases ho
        exact .takes hfree.1 rfl (by simp)
      · cases ho
        exact .calm rfl rfl (by simp)
      · cases ho
        exact .calm rfl rfl (by simp)
    | checkOwner f =>
      simp only [Mutex.threadStep, hpc] at ho
      split_ifs at ho
      · cases ho
        exact .calm rfl rfl (by simp)
      · cases ho
        exact .calm rfl rfl (by simp)
    | nest =>
      simp only [Mutex.threadStep, hpc, Mutex.nestLock] at ho
      split_ifs at ho
      all_goals
        cases ho
        exact .back rfl rfl rfl
    | enter f =>
      simp only [Mutex.threadStep, hpc] at ho
      split_ifs at ho with hfree hf
      · cases ho
        exact .takes hfree rfl (by simp)
      · cases ho
        exact .takes hfree rfl (by simp [Mutex.Thread.locked, Mutex.Thread.returns])
    | acquired fast =>
      simp only [Mutex.threadStep, hpc] at ho
      cases ho
      exact .clears fast hpc rfl rfl
    | unlockOwner mode =>
      simp only [Mutex.threadStep, hpc] at ho
      split_ifs at ho
      · cases ho
        exact .calm rfl rfl (by simp)
      · cases ho
        exact .back rfl rfl rfl
    | unlockNesting mode =>
      simp only [Mutex.threadStep, hpc, Mutex.unlockNesting] at ho
      split_ifs at ho with hn hsig
      · cases ho
        exact .back rfl rfl rfl
      · cases ho
        exact .calm rfl rfl (by simp)
      · cases ho
        exact .calm rfl rfl (by simp)
      · cases ho
        exact .keeps rfl rfl (fun _ => by simpa using hsig) (by simp)
    | fastUnlock =>
      simp only [Mutex.threadStep, hpc] at ho
      split_ifs at ho
      · cases ho
        exact .releases hpc rfl rfl rfl
      · cases ho
        exact .calm rfl rfl (by simp)
    | exit => exact absurd hpc (hexit rfl)
  | eintr =>
    cases hpc : t.pc with
    | enter f =>
      simp only [Mutex.threadStep, hpc] at ho
      cases ho
      exact .calm rfl rfl (by simp [hpc])
    | _ => simp [Mutex.threadStep, hpc] at ho
  | fail =>
    cases hpc : t.pc with
    | enter f =>
      simp only [Mutex.threadStep, hpc] at ho
      cases ho
      exact .back rfl rfl rfl
    | exit =>
      simp only [Mutex.threadStep, hpc] at ho
      cases ho
      exact .back rfl rfl rfl
    | _ => simp [Mutex.threadStep, hpc] at ho

/-- Only the mutex changes. -/
theorem Inv.of_lock {m : Mutex.State ι} (h : Inv s) (hlock : Mutex.LockInv s.use m)
    (hknows : ∀ j, s.use j = .inside → s.lock.gate.signaled = true → m.gate.signaled = true)
    (hheld : (∃ e, s.posted e ≠ none) → (s.lock.gate.signaled = true → m.gate.signaled = true) ∧
      ∃ i, m.gate.owner = some i ∧ ∀ fast, (m.thread i).pc ≠ .acquired fast)
    (hunlocking : ∀ i, (m.thread i).pc = .fastUnlock → ∀ e, s.posted e = none) :
    Inv { s with lock := m } where
  lock := hlock
  knows j := (h.knows j).of rfl (fun _ _ hg => hg) fun hj => ⟨hknows j hj, fun _ hb => hb⟩
  shown e bcast hp := by
    have hs := h.shown e bcast hp
    have he : ∃ e, s.posted e ≠ none := ⟨e, Option.ne_none_iff_exists'.mpr ⟨bcast, hp⟩⟩
    exact ⟨(hheld he).1 hs.gate, hs.signaled, hs.broadcast⟩
  held e hp := (hheld ⟨e, hp⟩).2
  unlocking := hunlocking

omit [DecidableEq ι] in
theorem inner_of_inside {m : Mutex.State ι} {l : Mutex.Label ι} (hl : inside m l = true) :
    l.inner = true := by
  unfold inside at hl
  split at hl
  · rfl
  · cases hl
  · exact hl

theorem Inv.inner {l : Mutex.Label ι} {m : Mutex.State ι} (h : Inv s)
    (hl : inside s.lock l = true) (hs : Mutex.step s.lock l = some m) :
    Inv { s with lock := m } := by
  have hlock := h.lock.run (inner_of_inside hl) hs
  cases l with
  | thread i a =>
    have hexit : a = .go → (s.lock.thread i).pc ≠ .exit := by
      rintro rfl
      simpa [inside] using hl
    have hinner := inner_of_inside hl
    obtain ⟨o, ho, rfl⟩ := Option.map_eq_some_iff.mp hs
    have hclaims := h.lock.claims i
    cases threadStep_moves hinner hexit ho with
    | keeps howner hsignaled hunlocking hacquired =>
      refine h.of_lock hlock (fun _ _ hg => hsignaled.trans hg) (fun ⟨e, he⟩ => ?_) fun j hj e => ?_
      · obtain ⟨k, hk, hnot⟩ := h.held e he
        refine ⟨fun hg => hsignaled.trans hg, k, howner.trans hk, fun fast => ?_⟩
        by_cases hki : k = i
        · subst hki
          simpa using hacquired fast
        · simpa [Function.update_of_ne hki] using hnot fast
      · by_cases hji : j = i
        · subst hji
          have hoff := hunlocking (by simpa using hj)
          by_contra he
          obtain ⟨bcast, hp⟩ := Option.ne_none_iff_exists'.mp he
          rw [(h.shown e bcast hp).gate] at hoff
          cases hoff
        · exact h.unlocking j (by simpa [Function.update_of_ne hji] using hj) e
    | takes howner hsignaled hunlocking =>
      have hnone : ∀ e, s.posted e = none := by
        intro e
        by_contra he
        obtain ⟨k, hk, -⟩ := h.held e he
        rw [howner] at hk
        cases hk
      exact h.of_lock hlock (fun _ _ hg => hsignaled.trans hg)
        (fun ⟨e, he⟩ => absurd (hnone e) he) fun _ _ => hnone
    | clears fast hpc howner hidle =>
      have hmine := owner_of_claims hclaims (.inl ⟨fast, hpc⟩)
      have hnone : ∀ e, s.posted e = none := by
        intro e
        by_contra he
        obtain ⟨k, hk, hnot⟩ := h.held e he
        obtain rfl := Option.some.inj (hmine.symm.trans hk)
        exact hnot fast hpc
      refine h.of_lock hlock (fun j hj => ?_) (fun ⟨e, he⟩ => absurd (hnone e) he) fun _ _ => hnone
      obtain rfl := Option.some.inj (hmine.symm.trans (h.owner hj))
      rw [hj] at hclaims
      exact absurd (hpc.symm.trans hclaims.1) nofun
    | releases hpc howner hsignaled hidle =>
      have hnone := h.unlocking i hpc
      exact h.of_lock hlock (fun _ _ hg => hsignaled.trans hg)
        (fun ⟨e, he⟩ => absurd (hnone e) he) fun _ _ => hnone
  | claimed b =>
    cases hs
    exact h.of_lock hlock (fun _ _ hg => hg) (fun ⟨e, he⟩ => ⟨id, h.held e he⟩) h.unlocking
  | signaled b => cases hl
  | window i b =>
    cases hs
    have hpc : ∀ j, (Function.update s.lock.thread i
        { s.lock.thread i with ppPending := b } j).pc = (s.lock.thread j).pc := by
      intro j
      by_cases hji : j = i
      · subst hji
        simp
      · simp [Function.update_of_ne hji]
    refine h.of_lock hlock (fun _ _ hg => hg) (fun ⟨e, he⟩ => ⟨id, ?_⟩) fun j hj => ?_
    · obtain ⟨k, hk, hnot⟩ := h.held e he
      exact ⟨k, hk, fun fast => by rw [hpc]; exact hnot fast⟩
    · exact h.unlocking j ((hpc j).symm.trans hj)

theorem LockInv.signaled {u : ι → Use} {m : Mutex.State ι} (h : Mutex.LockInv u m) (b : Bool) :
    Mutex.LockInv u { m with gate := { m.gate with signaled := b } } :=
  h.run (l := .signaled b) rfl rfl

/-- A thread calls or is back, and uses the mutex for something else. -/
theorem Inv.call {u : Use} {t : Mutex.Thread} (h : Inv s) (hpc : s.pc i = .none)
    (hlock : Mutex.LockInv (Function.update s.use i u)
      ⟨s.lock.gate, Function.update s.lock.thread i t⟩)
    (ht : t.pc ≠ .fastUnlock ∧ ∀ fast, t.pc ≠ .acquired fast) :
    Inv { s.uses i u with lock := ⟨s.lock.gate, Function.update s.lock.thread i t⟩ } := by
  refine ⟨hlock, fun j => ?_, fun e bcast hp => ?_, fun e he => ?_, fun j hj => ?_⟩
  · by_cases hji : j = i
    · subst hji
      show Knows _ j (s.pc j)
      rw [hpc]
      trivial
    · exact (h.knows j).of (Function.update_of_ne hji _ _) (fun _ _ hg => hg)
        fun _ => ⟨id, fun _ => id⟩
  · have hs := h.shown e bcast hp
    exact ⟨hs.gate, hs.signaled, hs.broadcast⟩
  · obtain ⟨k, hk, hnot⟩ := h.held e he
    refine ⟨k, hk, fun fast => ?_⟩
    by_cases hki : k = i
    · subst hki
      simpa using ht.2 fast
    · simpa [Function.update_of_ne hki] using hnot fast
  · by_cases hji : j = i
    · subst hji
      exact absurd (by simpa using hj) ht.1
    · exact h.unlocking j (by simpa [Function.update_of_ne hji] using hj)

/-- A thread that is out locks the mutex. -/
theorem Inv.lock_call {mode : Mutex.Mode} {m : Mutex.State ι} (h : Inv s) (hu : s.use i = .out)
    (hpc : s.pc i = .none)
    (hs : Mutex.step s.lock (.thread i (.lock .timedlock mode)) = some m) :
    Inv { s.uses i .locking with lock := m } := by
  have hlock := (Mutex.exclusion ι).locked h.lock hu ⟨mode, hs⟩
  obtain ⟨o, ho, rfl⟩ := Option.map_eq_some_iff.mp hs
  simp only [Mutex.threadStep] at ho
  split_ifs at ho
  cases ho
  refine h.call hpc hlock ?_
  unfold Mutex.tryLock
  split_ifs <;> exact ⟨nofun, nofun⟩

/-- A thread that owns the mutex unlocks it. -/
theorem Inv.unlock_call {mode : Mutex.Mode} {m : Mutex.State ι} (h : Inv s)
    (hu : s.use i = .inside) (hpc : s.pc i = .none)
    (hs : Mutex.step s.lock (.thread i (.unlock mode)) = some m) :
    Inv { s.uses i .leaving with lock := m } := by
  have hlock := (Mutex.exclusion ι).unlocked h.lock hu ⟨mode, hs⟩
  obtain ⟨o, ho, rfl⟩ := Option.map_eq_some_iff.mp hs
  simp only [Mutex.threadStep] at ho
  split_ifs at ho
  cases ho
  exact h.call hpc hlock ⟨nofun, nofun⟩

/-- A thread which locks or unlocks has no other call under way. -/
theorem Inv.pc_none (h : Inv s) (hout : s.use i ≠ .out) (hin : s.use i ≠ .inside) :
    s.pc i = .none := by
  cases hpc : s.pc i with
  | none => rfl
  | readGate | raiseGate | wait => exact absurd (h.knows_at hpc) hin
  | loadFlags | storeFlags => exact absurd (h.knows_at hpc).1 hin
  | waiting => exact absurd (h.knows_at hpc).1 hout
  | unwait => exact absurd (h.knows_at hpc) (not_or.mpr ⟨hout, hin⟩)

/-- A thread is back from a call that locks or unlocks. -/
theorem Inv.back {u : Use} (h : Inv s) (hidle : (s.lock.thread i).pc = .idle)
    (hu : s.use i = .locking ∨ s.use i = .leaving)
    (hc : Mutex.Claims s.lock.gate i (s.lock.thread i) u) : Inv (s.uses i u) := by
  have hpc : s.pc i = .none := by
    rcases hu with hu | hu
    · exact h.pc_none (by rw [hu]; nofun) (by rw [hu]; nofun)
    · exact h.pc_none (by rw [hu]; nofun) (by rw [hu]; nofun)
  have hlock : Mutex.LockInv (Function.update s.use i u)
      ⟨s.lock.gate, Function.update s.lock.thread i (s.lock.thread i)⟩ := by
    rw [Function.update_eq_self]
    exact h.lock.reused hc
  have hcall := h.call hpc hlock (by rw [hidle]; exact ⟨nofun, nofun⟩)
  rwa [Function.update_eq_self] at hcall

/-- Only what threads do about events changes. -/
theorem Inv.of_pc {f : ι → Pc κ} {r : ι → Ret} (h : Inv s) (hk : ∀ j, Knows s j (f j)) :
    Inv { s with pc := f, ret := r } where
  lock := h.lock
  knows j := (hk j).of rfl (fun _ _ hg => hg) fun _ => ⟨id, fun _ => id⟩
  shown e bcast hp := ⟨(h.shown e bcast hp).gate, (h.shown e bcast hp).signaled,
    (h.shown e bcast hp).broadcast⟩
  held := h.held
  unlocking := h.unlocking

theorem knows_update {pc : Pc κ} (h : Inv s) (hk : Knows s i pc) (j : ι) :
    Knows s j (Function.update s.pc i pc j) := by
  by_cases hji : j = i
  · subst hji
    rwa [Function.update_self]
  · rw [Function.update_of_ne hji]
    exact h.knows j

theorem Inv.at {pc : Pc κ} (h : Inv s) (hk : Knows s i pc) : Inv (s.at i pc) :=
  h.of_pc (knows_update h hk)

theorem Inv.returns {r : Ret} (h : Inv s) : Inv (s.returns i r) :=
  h.of_pc (knows_update h trivial)

/-- The owner raises the flag of the mutex. -/
theorem Inv.raise (h : Inv s) : Inv { s with
    lock := { s.lock with gate := { s.lock.gate with signaled := true } } } :=
  h.of_lock (LockInv.signaled h.lock true) (fun _ _ _ => rfl)
    (fun ⟨e, he⟩ => ⟨fun _ => rfl, h.held e he⟩) h.unlocking

theorem Inv.pc_idle (h : Inv s) (hi : s.use i = .inside) : (s.lock.thread i).pc = .idle :=
  (h.claims_at hi).1

/-- The owner raises the flags of an event. -/
theorem Inv.store [DecidableEq κ] {bcast broadcast : Bool} (h : Inv s)
    (hk : Knows s i (.storeFlags e bcast broadcast)) : Inv { s with
      event := Function.update s.event e ⟨(s.event e).gated, true, broadcast || bcast⟩
      pc := Function.update s.pc i .none
      posted := Function.update s.posted e (some ((s.posted e).getD false || bcast)) } := by
  obtain ⟨hin, hgate, hflag⟩ := hk
  have hmine := h.owner hin
  have hidle := h.pc_idle hin
  refine ⟨h.lock, fun j => ?_, fun e' b hp => ?_, fun e' _ => ⟨i, hmine, ?_⟩, fun j hj => ?_⟩
  · by_cases hji : j = i
    · subst hji
      show Knows _ j (Function.update s.pc j .none j)
      rw [Function.update_self]
      trivial
    · show Knows _ j (Function.update s.pc i .none j)
      rw [Function.update_of_ne hji]
      refine (h.knows j).of rfl (fun e' _ hg => ?_) fun hj =>
        absurd (Option.some.inj (hmine.symm.trans (h.owner hj))).symm hji
      by_cases he : e' = e
      · subst he
        simpa using hg
      · simpa [Function.update_of_ne he] using hg
  · dsimp only at hp
    by_cases he : e' = e
    · subst he
      rw [Function.update_self] at hp
      cases hp
      refine ⟨hgate, by simp, fun hb => ?_⟩
      cases hposted : s.posted e' with
      | none => simp_all
      | some b =>
        cases b with
        | false => simp_all
        | true => simp [hflag ((h.shown e' true hposted).broadcast rfl)]
    · rw [Function.update_of_ne he] at hp
      have hs := h.shown e' b hp
      exact ⟨hs.gate, by simpa [Function.update_of_ne he] using hs.signaled,
        by simpa [Function.update_of_ne he] using hs.broadcast⟩
  · intro fast
    rw [hidle]
    nofun
  · have hother := owner_of_claims (h.lock.claims j) (.inr (.inl hj))
    obtain rfl := Option.some.inj (hmine.symm.trans hother)
    exact absurd (hidle.symm.trans hj) nofun

theorem Inv.raises {bcast : Bool} (h : Inv s) (hpc : s.pc i = .raiseGate e bcast) :
    Inv { s.at i (.loadFlags e bcast) with
      lock := { s.lock with gate := { s.lock.gate with signaled := true } } } := by
  have hknows : Knows { s with
      lock := { s.lock with gate := { s.lock.gate with signaled := true } } } i
      (.loadFlags e bcast) := ⟨h.knows_at hpc, rfl⟩
  exact h.raise.at hknows

/-- When nobody owns the mutex, no signal is left. -/
theorem Inv.posted_none (h : Inv s) (ho : s.lock.gate.owner = none) (e : κ) :
    s.posted e = none := by
  by_contra he
  obtain ⟨k, hk, -⟩ := h.held e he
  rw [ho] at hk
  cases hk

/-- The kernel takes the flags while it releases the mutex. -/
theorem Inv.take {k : Left κ} {m : Mutex.State ι} (h : Inv s) (hlock : Mutex.LockInv s.use m)
    (hnone : ∀ j, s.use j ≠ .inside) : Inv ({ s with lock := m }.take k) where
  lock := LockInv.signaled hlock k.gate
  knows j := (h.knows j).of rfl (fun _ _ hg => hg) fun hj => absurd hj (hnone j)
  shown _ _ hp := nomatch hp
  held _ he := absurd rfl he
  unlocking _ _ _ := rfl

theorem Inv.exit {k : Left κ} {m : Mutex.State ι} (h : Inv s)
    (hpc : (s.lock.thread i).pc = .exit)
    (hs : Mutex.step s.lock (.thread i .go) = some m) : Inv ({ s with lock := m }.take k) := by
  refine h.take (h.lock.run (l := .thread i .go) rfl hs) fun j hj => ?_
  have hmine := owner_of_claims (h.lock.claims i) (.inr (.inr hpc))
  obtain rfl := Option.some.inj (hmine.symm.trans (h.owner hj))
  exact absurd ((h.pc_idle hj).symm.trans hpc) nofun

theorem Inv.suspend [DecidableEq κ] {k : Left κ} (h : Inv s) (hpc : s.pc i = .wait e)
    (howner : s.lock.gate.owner = some i) :
    Inv { (((s.take k).owned none).at i (.waiting e)).uses i .out with
      event := Function.update (s.take k).event e { (s.take k).event e with gated := true } } := by
  have hin : s.use i = .inside := h.knows_at hpc
  have hlock : Mutex.LockInv (Function.update s.use i .out)
      { s.lock with gate := { s.lock.gate with owner := none, claimed := false } } := by
    have hr : Mutex.Respects s.lock.gate i .out
        ({ s.lock.gate with owner := none, claimed := false }, s.lock.thread i) :=
      Mutex.respects_of_release howner h.lock.plain (h.pc_idle hin)
    simpa using h.lock.moved hr
  refine ⟨LockInv.signaled hlock k.gate, fun j => ?_, fun _ _ hp => (nomatch hp),
    fun _ he => absurd rfl he, fun _ _ _ => rfl⟩
  by_cases hji : j = i
  · subst hji
    simp [State.at, State.uses, State.owned, Knows]
  · show Knows _ j (Function.update s.pc i (.waiting e) j)
    rw [Function.update_of_ne hji]
    refine (h.knows j).of (Function.update_of_ne hji _ _) (fun e' _ hg => ?_) fun hj =>
      absurd (Option.some.inj (howner.symm.trans (h.owner hj))).symm hji
    by_cases he : e' = e
    · subst he
      simp
    · simpa [Function.update_of_ne he, State.uses, State.at, State.owned, State.take] using hg

/-- A thread which is not inside of a call of the mutex owns it from here on. -/
theorem Inv.regain {r : Ret} {g : Mutex.Gate ι} (h : Inv s)
    (hg : g.signaled = s.lock.gate.signaled ∧ g.owner = some i)
    (hidle : (s.lock.thread i).pc = .idle)
    (hlock : Mutex.LockInv (Function.update s.use i .inside) { s.lock with gate := g }) :
    Inv (({ s with lock := { s.lock with gate := g } }.returns i r).uses i .inside) := by
  refine ⟨hlock, fun j => ?_, fun e bcast hp => ?_, fun e _ => ⟨i, hg.2, ?_⟩, h.unlocking⟩
  · by_cases hji : j = i
    · subst hji
      show Knows _ j (Function.update s.pc j .none j)
      rw [Function.update_self]
      trivial
    · show Knows _ j (Function.update s.pc i .none j)
      rw [Function.update_of_ne hji]
      exact (h.knows j).of (Function.update_of_ne hji _ _) (fun _ _ hg => hg)
        fun _ => ⟨fun hs => hg.1.trans hs, fun _ => id⟩
  · have hs := h.shown e bcast hp
    exact ⟨hg.1.trans hs.gate, hs.signaled, hs.broadcast⟩
  · intro fast
    show (s.lock.thread i).pc ≠ _
    rw [hidle]
    nofun

theorem Inv.idle_of_use (h : Inv s) (hu : s.use i = .out ∨ s.use i = .inside) :
    (s.lock.thread i).pc = .idle := by
  rcases hu with hu | hu
  · exact h.claims_at hu
  · exact h.pc_idle hu

theorem Inv.resume (h : Inv s) (hs : Resumed s i s') : Inv s' := by
  have hidle : (∃ e, s.pc i = .waiting e) ∨ (∃ r, s.pc i = .unwait r) →
      (s.lock.thread i).pc = .idle := by
    rintro (⟨e, hpc⟩ | ⟨r, hpc⟩)
    · exact h.idle_of_use (.inl (h.knows_at hpc).1)
    · exact h.idle_of_use (h.knows_at hpc)
  cases hs with
  | regains r hpc howner =>
    have hr : Mutex.Respects s.lock.gate i .inside
        ({ s.lock.gate with owner := some i, claimed := false }, s.lock.thread i) :=
      Mutex.respects_of_free howner h.lock.plain ⟨hidle hpc, rfl⟩
    exact h.regain ⟨rfl, rfl⟩ (hidle hpc) (by simpa using h.lock.moved hr)
  | keeps r hpc howner =>
    exact h.regain ⟨rfl, howner⟩ (hidle (.inr hpc)) (h.lock.reused ⟨hidle (.inr hpc), howner⟩)

theorem Inv.fail {r : Ret} (h : Inv s) (hs : Failed s i r s') : Inv s' := by
  cases hs with
  | gone => exact h.returns
  | recovers hpc =>
    obtain ⟨e, hpc⟩ | ⟨e, hpc⟩ := hpc
    · exact h.at (.inr (h.knows_at hpc))
    · exact h.at (.inl (h.knows_at hpc).1)
  | repeats => exact h
  | gives => exact h.returns

theorem Inv.ungate [DecidableEq κ] (h : Inv s) (hno : ∀ j, s.pc j ≠ .waiting e) :
    Inv { s with event := Function.update s.event e { s.event e with gated := false } } := by
  have hsame : ∀ e', (Function.update s.event e { s.event e with gated := false } e').signaled =
      (s.event e').signaled ∧
      (Function.update s.event e { s.event e with gated := false } e').broadcast =
        (s.event e').broadcast := by
    intro e'
    by_cases he : e' = e
    · subst he
      simp
    · simp [Function.update_of_ne he]
  refine ⟨h.lock, fun j => ?_, fun e' bcast hp => ?_, h.held, h.unlocking⟩
  · refine (h.knows j).of rfl (fun e' hj hg => ?_) fun _ =>
      ⟨id, fun e' hb => ((hsame e').2).symm.trans hb⟩
    have he : e' ≠ e := by
      rintro rfl
      exact hno j hj
    simpa [Function.update_of_ne he] using hg
  · have hs := h.shown e' bcast hp
    exact ⟨hs.gate, (hsame e').1.trans hs.signaled, fun hb => (hsame e').2.trans (hs.broadcast hb)⟩

theorem Inv.locked (h : Inv s) (hidle : (s.lock.thread i).pc = .idle)
    (hu : s.use i = .locking) :
    Inv (s.uses i (if (s.lock.thread i).ret = .ok then .inside else .out)) := by
  refine h.back hidle (.inl hu) ?_
  split_ifs with hret
  · have hclaims := h.claims_at hu
    unfold Mutex.Claims at hclaims
    simp only [hidle] at hclaims
    exact ⟨hidle, hclaims hret⟩
  · exact hidle

theorem Inv.step [Fintype ι] [DecidableEq κ] {a : Act ι κ} (h : Inv s)
    (hs : Event.step s a = some s') : Inv s' := by
  cases step_cases hs with
  | lock hu hpc hm => exact h.lock_call hu hpc hm
  | unlock hu hpc hm => exact h.unlock_call hu hpc hm
  | inner hl hm => exact h.inner hl hm
  | exit hpc hm => exact h.exit hpc hm
  | locked hidle hu => exact h.locked hidle hu
  | unlocked hidle hu => exact h.back hidle (.inr hu) hidle
  | signal hu => exact h.at hu
  | wait hu => exact h.at hu
  | finds hpc =>
    have hk := h.knows_at hpc
    exact h.at hk
  | drops => exact h.returns
  | raises hpc => exact h.raises hpc
  | loads hpc =>
    have hk := h.knows_at hpc
    exact h.at ⟨hk.1, hk.2, id⟩
  | stores hpc =>
    have hk := h.knows_at hpc
    exact (h.store hk).of_pc (h.store hk).knows
  | suspend hpc howner => exact h.suspend hpc howner
  | resume hr => exact h.resume hr
  | fail hf => exact h.fail hf
  | ungate hno => exact h.ungate hno

theorem initial_inv (protocol : Mutex.Protocol) : Inv (initial ι κ protocol) where
  lock := (Mutex.exclusion ι).started ⟨protocol, rfl⟩
  knows _ := trivial
  shown _ _ hp := nomatch hp
  held _ he := absurd rfl he
  unlocking _ hi := nomatch hi

/-- The states of all runs. -/
abbrev Reachable [Fintype ι] [DecidableEq κ] : State ι κ → Prop :=
  Reach (fun s a s' => Event.step s a = some s') fun s => ∃ protocol, s = initial ι κ protocol

theorem Reachable.inv [Fintype ι] [DecidableEq κ] (h : Reachable s) : Inv s :=
  h.invariant (by rintro _ ⟨protocol, rfl⟩; exact initial_inv protocol)
    fun _ _ _ hi hs => hi.step hs

theorem Inv.unheld (h : Inv s) (he : s.posted e ≠ none) : s.lock.gate.owner ≠ none :=
  fun ho => he (h.posted_none ho e)

/-- A step of the mutex leaves it to its owner, as long as there are signals. -/
theorem Inv.inner_owner {l : Mutex.Label ι} {m : Mutex.State ι} (h : Inv s)
    (he : s.posted e ≠ none) (hl : inside s.lock l = true) (hs : Mutex.step s.lock l = some m) :
    m.gate.owner = s.lock.gate.owner := by
  cases l with
  | thread i a =>
    have hexit : a = .go → (s.lock.thread i).pc ≠ .exit := by
      rintro rfl
      simpa [inside] using hl
    obtain ⟨o, ho, rfl⟩ := Option.map_eq_some_iff.mp hs
    cases threadStep_moves (inner_of_inside hl) hexit ho with
    | keeps howner => exact howner
    | takes howner => exact absurd howner (h.unheld he)
    | clears fast hpc howner => exact howner
    | releases hpc => exact absurd (h.unlocking i hpc e) he
  | claimed b =>
    cases hs
    rfl
  | signaled b => cases hl
  | window i b =>
    cases hs
    rfl

omit [DecidableEq ι] in
theorem posted_store [DecidableEq κ] {p : κ → Option Bool} {e e' : κ} {b : Bool}
    (he : p e ≠ none) : Function.update p e' (some b) e ≠ none := by
  by_cases h : e = e'
  · subst h
    simp
  · rwa [Function.update_of_ne h]

end Held

end Invariant

section Results

variable {ι κ : Type*} [DecidableEq ι] [DecidableEq κ] [Fintype ι] {s : State ι κ}

omit [DecidableEq κ] [Fintype ι] in
/-- A call of the mutex starts outside of its state. -/
theorem call_gate {l : Mutex.Label ι} {m m' : Mutex.State ι} (hl : l.inner = false)
    (hs : Mutex.step m l = some m') : m'.gate = m.gate := by
  cases l with
  | thread i a =>
    obtain ⟨o, ho, rfl⟩ := Option.map_eq_some_iff.mp hs
    cases a with
    | lock f mode =>
      simp only [Mutex.threadStep] at ho
      split_ifs at ho
      cases ho
      rfl
    | unlock mode =>
      simp only [Mutex.threadStep] at ho
      split_ifs at ho
      cases ho
      rfl
    | _ => cases hl
  | _ => cases hl

/-- The signals of the owner stay in the flags until a request of its own releases the mutex, and
nobody else gets the mutex before. A signal is not dropped where a thread waits. -/
theorem signals_reach_kernel (h : Reachable s) :
    (∀ e bcast, s.posted e = some bcast → Shown s e bcast) ∧
    (∀ e a s', step s a = some s' → s.posted e ≠ none →
      s'.posted e ≠ none ∧ s'.lock.gate.owner = s.lock.gate.owner ∨
        ∃ i k, s.lock.gate.owner = some i ∧ (a = .exit i k ∨ a = .suspend i k)) ∧
    ∀ i e bcast j, s.pc i = .readGate e bcast → s.pc j = .waiting e →
      (s.event e).gated = true := by
  have hinv := h.inv
  refine ⟨hinv.shown, fun e a s' hs he => ?_, fun i e bcast j _ hj => ?_⟩
  · cases step_cases hs with
    | lock _ _ hm | unlock _ _ hm => exact .inl ⟨he, by rw [← call_gate rfl hm]⟩
    | inner hl hm => exact .inl ⟨he, hinv.inner_owner he hl hm⟩
    | exit hpc =>
      have hmine := owner_of_claims (hinv.lock.claims _) (.inr (.inr hpc))
      exact .inr ⟨_, _, hmine, .inl rfl⟩
    | suspend _ howner => exact .inr ⟨_, _, howner, .inr rfl⟩
    | stores => exact .inl ⟨posted_store he, rfl⟩
    | resume hr =>
      cases hr with
      | regains r hpc howner => exact absurd howner (hinv.unheld he)
      | keeps => exact .inl ⟨he, rfl⟩
    | fail hf =>
      cases hf with
      | gone | recovers | repeats | gives => exact .inl ⟨he, rfl⟩
    | _ => exact .inl ⟨he, rfl⟩
  · exact (hinv.knows_at hj).2

/-- A thread waits, and another one signals. -/
def signalRun : List (Act (Fin 2) Unit) :=
  let lock i : List (Act (Fin 2) Unit) :=
    [.lock i ⟨false, false, false⟩, .inner (.thread i .go), .inner (.thread i .go), .back i]
  lock 0 ++ [.wait 0 (), .suspend 0 ⟨false, fun _ => (false, false)⟩] ++
    lock 1 ++ [.signal 1 () false, .go 1, .go 1, .go 1, .go 1]

theorem signals_reach_kernel_signalRun : ∃ s : State (Fin 2) Unit,
    runs step (initial (Fin 2) Unit .pi) signalRun = some s ∧ s.posted () = some false ∧
      Shown s () false := by
  have hruns : ((runs step (initial (Fin 2) Unit .pi) signalRun).map fun s => s.posted ()) =
      some (some false) := by decide
  obtain ⟨s, hs, hposted⟩ := Option.map_eq_some_iff.mp hruns
  exact ⟨s, hs, hposted, (signals_reach_kernel (reach_of_runs (fun _ _ _ _ h => h)
    (.init ⟨.pi, rfl⟩) hs)).1 () false hposted⟩

/-- A step of a call that waits. -/
def Pc.waits : Pc κ → Bool
  | .wait _ | .waiting _ | .unwait _ => true
  | _ => false

/-- The thread whose call about an event goes on. -/
def Act.thread : Act ι κ → Option ι
  | .signal i .. | .wait i _ | .go i | .suspend i _ | .resume i | .fail i _ => some i
  | _ => none

theorem step_pc {s' : State ι κ} {a : Act ι κ} {i : ι} (hs : step s a = some s')
    (ha : a.thread ≠ some i) : s'.pc i = s.pc i := by
  have hne : ∀ k, some k ≠ some i → i ≠ k := fun k hk hik => hk (congrArg some hik.symm)
  cases step_cases hs with
  | lock | unlock | inner | exit | locked | unlocked | ungate => rfl
  | resume hr =>
    cases hr with
    | regains | keeps => exact Function.update_of_ne (hne _ ha) _ _
  | fail hf =>
    cases hf with
    | repeats => rfl
    | gone | recovers | gives => exact Function.update_of_ne (hne _ ha) _ _
  | _ => exact Function.update_of_ne (hne _ ha) _ _

/-- One thread at a time has the mutex, through all waits: a thread comes back from
`evl_timedwait_event` as its owner, but for a deleted event or mutex, a thread that may not wait, or
a failing request to get the mutex back. -/
theorem wait_excludes (h : Reachable s) :
    (∀ i j, s.use i = .inside → s.use j = .inside → i = j) ∧
    ∀ i a s', step s a = some s' → (s.pc i).waits = true → s'.pc i = .none →
      (s'.use i = .inside ∧ s'.lock.gate.owner = some i) ∨ s'.ret i = .idrm ∨ s'.ret i = .perm ∨
        ∃ r, a = .fail i r ∧ ∃ r', s.pc i = .unwait r' := by
  have hinv := h.inv
  refine ⟨fun i j => (Mutex.exclusion ι).exclusive hinv.lock, fun i a s' hs hw hnone => ?_⟩
  have hinv' := hinv.step hs
  have hmine : a.thread = some i := by
    by_contra ha
    rw [step_pc hs ha] at hnone
    rw [hnone] at hw
    cases hw
  cases step_cases hs with
  | signal _ hpc | wait _ hpc | finds hpc | drops hpc | raises hpc | loads hpc | stores hpc =>
    cases hmine
    rw [hpc] at hw
    cases hw
  | suspend =>
    cases hmine
    simp [State.uses, State.at] at hnone
  | resume hr =>
    cases hmine
    have hin : s'.use i = .inside := by
      cases hr with
      | regains | keeps => exact Function.update_self ..
    exact .inl ⟨hin, hinv'.owner hin⟩
  | fail hf =>
    cases hmine
    cases hf with
    | gone hpc hret =>
      rw [show (s.returns i _).ret i = _ from Function.update_self ..]
      exact .inr (hret.imp id .inl)
    | recovers => simp [State.at] at hnone
    | repeats r hpc => exact .inr (.inr (.inr ⟨_, rfl, r, hpc⟩))
    | gives r r' hpc => exact .inr (.inr (.inr ⟨_, rfl, r, hpc⟩))
  | _ => cases hmine

/-- The second thread unlocks, and the first one is back. -/
def wakeRun : List (Act (Fin 2) Unit) :=
  signalRun ++ [.unlock 1 ⟨false, false, false⟩, .inner (.thread 1 .go), .inner (.thread 1 .go),
    .exit 1 ⟨false, fun _ => (false, false)⟩, .back 1]

theorem wait_excludes_wakeRun : ∃ s s' : State (Fin 2) Unit,
    runs step (initial (Fin 2) Unit .pi) wakeRun = some s ∧ step s (.resume 0) = some s' ∧
      s'.lock.gate.owner = some 0 := by
  have hruns : ((runs step (initial (Fin 2) Unit .pi) wakeRun).bind fun s =>
      (step s (.resume 0)).map fun s' => ((s.pc 0).waits, decide (s'.pc 0 = .none),
        decide (s'.ret 0 = .ok))) = some (true, true, true) := by decide
  obtain ⟨s, hs, hs'⟩ := Option.bind_eq_some_iff.mp hruns
  obtain ⟨s', hs', hcond⟩ := Option.map_eq_some_iff.mp hs'
  simp only [Prod.mk.injEq, decide_eq_true_eq] at hcond
  obtain ⟨hw, hnone, hok⟩ := hcond
  refine ⟨s, s', hs, hs', ?_⟩
  obtain h | h | h | ⟨r, h, -⟩ := (wait_excludes (reach_of_runs (fun _ _ _ _ h => h)
    (.init ⟨.pi, rfl⟩) hs)).2 0 (.resume 0) s' hs' hw hnone
  · exact h.2
  · exact absurd (hok.symm.trans h) nofun
  · exact absurd (hok.symm.trans h) nofun
  · cases h

end Results

end Libevl.Event
