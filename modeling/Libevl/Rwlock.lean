import Libevl.Transition

/-!
# The read-write lock as a step relation

The lock word packs a signed 31-bit count and a reader-pending bit. Every
atomic read and compare-exchange of the word, and every request to the flag
group, is one step of one thread. A weak compare-exchange may fail although the
word matches; the wrapper in `atomic.h` then still hands back the expected
value, so the caller takes the failure for a success.
-/
namespace Libevl.Rwlock
open Transition

/-- `union __evl_rwlock_inner`. -/
structure Inner where
  count : ℤ
  rdpend : Bool
  deriving DecidableEq, Repr

/-- `__EVL_RWLOCK_WRBIAS`, the largest value of the count. -/
def wrBias : ℤ := 0x3fffffff

/-- A store into the signed 31-bit `count` field. -/
def narrow31 (x : ℤ) : ℤ := x.bmod (2 ^ 31)

theorem narrow31_eq {x : ℤ} (h₁ : -wrBias ≤ x) (h₂ : x ≤ wrBias) : narrow31 x = x := by
  unfold narrow31 wrBias at *
  rw [Int.bmod_def]
  split <;> omega

theorem narrow31_range (x : ℤ) : -2 ^ 30 ≤ narrow31 x ∧ narrow31 x < 2 ^ 30 := by
  rw [narrow31, Int.bmod_def]
  split <;> omega

theorem narrow31_eq_zero {x : ℤ} (h₁ : -2 ^ 31 < x) (h₂ : x ≤ 0) (h : narrow31 x = 0) :
    x = 0 := by
  rw [narrow31, Int.bmod_def] at h
  split at h <;> omega

/-- The six operations on an initialized lock. -/
inductive Fn
  | lockRead | trylockRead | unlockRead | lockWrite | trylockWrite | unlockWrite
  deriving DecidableEq, Repr

/-- Zero, `-EAGAIN`, or the error of a failed wait. -/
inductive Ret
  | ok | again | error
  deriving DecidableEq, Repr

/-- Where a thread stands. A `cas` carries the word its operation has read. -/
inductive Pc
  | idle
  | load (f : Fn)
  | cas (f : Fn) (prev : Inner)
  | waitRd
  | sleepRd
  | waitWr
  | postWr
  | bcastRd
  deriving DecidableEq, Repr

/-- A thread, the last value returned to it, and the holds it has. -/
structure Thread where
  pc : Pc
  ret : Ret
  reads : ℕ
  writes : ℕ
  deriving DecidableEq, Repr

/-- The lock word, the two bits of the flag group, and the operation whose
assertion has failed, if any. -/
structure Shared where
  lock : Inner
  wr : Bool
  rd : Bool
  failed : Option Fn
  deriving DecidableEq, Repr

structure State (ι : Type*) where
  shared : Shared
  thread : ι → Thread

/-- `EVL_RWLOCK_INITIALIZER`, with every thread outside of the operations. -/
def initial (ι : Type*) : State ι where
  shared := ⟨⟨wrBias, false⟩, false, false, none⟩
  thread := fun _ => ⟨.idle, .ok, 0, 0⟩

/-- What the scheduler and the kernel may do with a thread. `wake` completes a
wait for the RD bit whatever the bit, `eintr` and `fail` make a wait return
`-EINTR` or another error, and `spurious` makes a weak exchange fail although
the word matches. -/
inductive Act
  | call (f : Fn)
  | go
  | spurious
  | wake
  | eintr
  | fail
  deriving DecidableEq, Repr

def Thread.returns (t : Thread) (r : Ret) : Thread := { t with pc := .idle, ret := r }

/-- The word an operation computes from the one it has read. -/
def nextWord : Fn → Inner → Inner
  | .lockRead, prev =>
    if prev.count ≤ 0 then ⟨prev.count, true⟩ else ⟨narrow31 (prev.count - 1), false⟩
  | .trylockRead, prev => ⟨narrow31 (prev.count - 1), false⟩
  | .unlockRead, prev => ⟨narrow31 (prev.count + 1), prev.rdpend⟩
  | .lockWrite, prev =>
    if prev.count ≤ 0 then ⟨narrow31 (prev.count - 1), prev.rdpend⟩
    else ⟨narrow31 (prev.count - wrBias), prev.rdpend⟩
  | .trylockWrite, prev => ⟨narrow31 (prev.count - wrBias), prev.rdpend⟩
  | .unlockWrite, prev =>
    if prev.count < 0 then ⟨narrow31 (prev.count + 1), prev.rdpend⟩ else ⟨wrBias, false⟩

/-- The operations which use `atomic_cmpxchg_weak` in a loop. -/
def Fn.weak : Fn → Bool
  | .trylockRead | .trylockWrite => false
  | _ => true

/-- From the atomic read up to the compare-exchange. -/
def onLoad (f : Fn) (sh : Shared) (t : Thread) : Shared × Thread :=
  let prev := sh.lock
  let abort := ({ sh with failed := some f }, t)
  let exchange := (sh, { t with pc := .cas f prev })
  match f with
  | .lockRead => if prev.count ≤ 0 then exchange else if prev.rdpend then abort else exchange
  | .trylockRead =>
    if prev.count ≤ 0 then (sh, t.returns .again) else if prev.rdpend then abort else exchange
  | .unlockRead | .lockWrite => exchange
  | .trylockWrite =>
    let count := narrow31 (prev.count - wrBias)
    if 0 < count then abort else if count < 0 then (sh, t.returns .again) else exchange
  | .unlockWrite =>
    if prev.count < 0 then exchange else if prev.count = 0 then exchange else abort

/-- From a compare-exchange which handed back `prev` up to the next request. -/
def onExchanged (f : Fn) (prev : Inner) (sh : Shared) (t : Thread) : Shared × Thread :=
  let next := nextWord f prev
  match f with
  | .lockRead =>
    if 0 < prev.count then (sh, { t.returns .ok with reads := t.reads + 1 })
    else (sh, { t with pc := .waitRd })
  | .trylockRead => (sh, { t.returns .ok with reads := t.reads + 1 })
  | .unlockRead =>
    if next.count = 0 then (sh, { t with pc := .postWr, reads := t.reads - 1 })
    else (sh, { t.returns .ok with reads := t.reads - 1 })
  | .lockWrite =>
    if 0 < next.count then ({ sh with failed := some .lockWrite }, t)
    else if next.count ≠ 0 then (sh, { t with pc := .waitWr })
    else (sh, { t.returns .ok with writes := t.writes + 1 })
  | .trylockWrite => (sh, { t.returns .ok with writes := t.writes + 1 })
  | .unlockWrite =>
    if prev.count < 0 then (sh, { t with pc := .postWr, writes := t.writes - 1 })
    else if prev.rdpend then (sh, { t with pc := .bcastRd, writes := t.writes - 1 })
    else (sh, { t.returns .ok with writes := t.writes - 1 })

/-- Only holders unlock. -/
def Thread.mayCall (t : Thread) : Fn → Bool
  | .unlockRead => 0 < t.reads
  | .unlockWrite => 0 < t.writes
  | _ => true

/-- One step of one thread, the broadcast apart. -/
def threadStep (sh : Shared) (t : Thread) : Act → Option (Shared × Thread)
  | .call f =>
    if t.pc = .idle ∧ t.mayCall f then some (sh, { t with pc := .load f }) else none
  | .go =>
    match t.pc with
    | .load f => some (onLoad f sh t)
    | .cas f prev =>
      if sh.lock = prev then some (onExchanged f prev { sh with lock := nextWord f prev } t)
      else if f.weak then some (sh, { t with pc := .load f })
      else some (sh, t.returns .again)
    | .waitRd =>
      if sh.rd then some ({ sh with rd := false }, { t with pc := .load .lockRead })
      else some (sh, { t with pc := .sleepRd })
    | .waitWr =>
      if sh.wr then some ({ sh with wr := false }, { t.returns .ok with writes := t.writes + 1 })
      else none
    | .postWr => some ({ sh with wr := true }, t.returns .ok)
    | _ => none
  | .spurious =>
    match t.pc with
    | .cas f prev =>
      if f.weak ∧ sh.lock = prev then some (onExchanged f prev sh t) else none
    | _ => none
  | .wake =>
    if t.pc = .waitRd ∨ t.pc = .sleepRd then some (sh, { t with pc := .load .lockRead }) else none
  | .eintr =>
    match t.pc with
    | .waitRd | .sleepRd => some (sh, { t with pc := .waitRd })
    | .waitWr => some (sh, t)
    | _ => none
  | .fail =>
    if t.pc = .waitRd ∨ t.pc = .sleepRd ∨ t.pc = .waitWr then some (sh, t.returns .error) else none

variable {ι : Type*} [Fintype ι] [DecidableEq ι]

/-- `evl_broadcast_flags` hands the RD bit to every sleeper, or leaves it set. -/
def bcast (s : State ι) (i : ι) : State ι :=
  let f := Function.update s.thread i ((s.thread i).returns .ok)
  if ∃ j, (f j).pc = .sleepRd then
    { s with thread := fun j => if (f j).pc = .sleepRd then { f j with pc := .load .lockRead }
                                else f j }
  else { shared := { s.shared with rd := true }, thread := f }

/-- One step of the system. A failed assertion ends the run. -/
def step (s : State ι) (l : ι × Act) : Option (State ι) :=
  if s.shared.failed.isSome then none
  else if (s.thread l.1).pc = .bcastRd ∧ l.2 = .go then some (bcast s l.1)
  else (threadStep s.shared (s.thread l.1) l.2).map fun r =>
    ⟨r.1, Function.update s.thread l.1 r.2⟩

def Thread.queued (t : Thread) : ℕ := if t.pc = .waitWr then 1 else 0
def Thread.posting (t : Thread) : ℕ := if t.pc = .postWr then 1 else 0

def readHolds (s : State ι) : ℕ := total Thread.reads s.thread
def writeHolds (s : State ι) : ℕ := total Thread.writes s.thread
def queued (s : State ι) : ℕ := total Thread.queued s.thread
def posting (s : State ι) : ℕ := total Thread.posting s.thread

/-- Read holds, write holds and registered writers together. -/
def outstanding (s : State ι) : ℕ := readHolds s + writeHolds s + queued s

/-- The steps admitted by `ok` which keep the outstanding requests below the bias. -/
def Step (ok : State ι → ι × Act → Prop) (s : State ι) (l : ι × Act) (s' : State ι) : Prop :=
  ok s l ∧ step s l = some s' ∧ outstanding s' < wrBias

/-- Every wait succeeds or is interrupted. -/
def WaitsHold (_ : State ι) (l : ι × Act) : Prop := l.2 ≠ .fail

/-- Besides, no weak compare-exchange fails on a matching word. -/
def Exact (s : State ι) (l : ι × Act) : Prop := WaitsHold s l ∧ l.2 ≠ .spurious

/-- A writer about to register behind readers. -/
def Joins (s : State ι) (l : ι × Act) : Prop :=
  l.2 = .go ∧ (s.thread l.1).pc = .cas .lockWrite s.shared.lock ∧ s.shared.lock.count ≤ 0 ∧
    0 < readHolds s

/-- Exchanges are exact, and no writer joins another one behind readers. -/
def Orderly (s : State ι) (l : ι × Act) : Prop := Exact s l ∧ ¬ Joins s l

instance (s : State ι) (l : ι × Act) : Decidable (WaitsHold s l) :=
  inferInstanceAs (Decidable (_ ≠ _))

instance (s : State ι) (l : ι × Act) : Decidable (Exact s l) :=
  inferInstanceAs (Decidable (_ ∧ _))

instance (s : State ι) (l : ι × Act) : Decidable (Joins s l) :=
  inferInstanceAs (Decidable (_ ∧ _))

instance (s : State ι) (l : ι × Act) : Decidable (Orderly s l) :=
  inferInstanceAs (Decidable (_ ∧ _))

/-- The steps of `Step ok`, computed. -/
def guarded (ok : State ι → ι × Act → Prop) [∀ s l, Decidable (ok s l)] (s : State ι)
    (l : ι × Act) : Option (State ι) :=
  if ok s l then (step s l).filter fun s' => (outstanding s' : ℤ) < wrBias else none

theorem step_of_guarded {ok : State ι → ι × Act → Prop} [∀ s l, Decidable (ok s l)]
    {s s' : State ι} {l : ι × Act} (h : guarded ok s l = some s') : Step ok s l s' := by
  simp only [guarded] at h
  split_ifs at h with hl
  obtain ⟨hs, hb⟩ := Option.filter_eq_some_iff.mp h
  exact ⟨hl, hs, by simpa using hb⟩

/-- A replayed schedule reaches its last state. -/
theorem reach_of_guarded {ok : State ι → ι × Act → Prop} [∀ s l, Decidable (ok s l)]
    {as : List (ι × Act)} {s : State ι} (h : runs (guarded ok) (initial ι) as = some s) :
    Reach (Step ok) (· = initial ι) s :=
  reach_of_runs (fun _ _ _ _ => step_of_guarded) (.init rfl) h

end Libevl.Rwlock
