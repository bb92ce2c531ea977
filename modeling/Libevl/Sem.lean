import Libevl.Transition

/-!
# The counting semaphore as a step relation

The value of a semaphore is shared with the kernel. A put or a get which finds
it in a state that needs no service updates it in user space, by a weak
compare-exchange; the others go through the kernel. Every atomic load and
compare-exchange, and every request to the kernel, is one step of one thread.
The count of pollers belongs to the kernel and may change at any time.
-/
namespace Libevl.Sem
open Transition

/-- A store into a `__s32`. -/
def narrow32 (x : ℤ) : ℤ := x.bmod (2 ^ 32)

theorem narrow32_eq {x : ℤ} (h₁ : -2 ^ 31 ≤ x) (h₂ : x < 2 ^ 31) : narrow32 x = x := by
  rw [narrow32, Int.bmod_def]
  split <;> omega

/-- The operations on an active semaphore. -/
inductive Fn
  | put | tryget | timedget
  deriving DecidableEq, Repr

/-- What `__evl_get_current` and `__evl_get_current_mode` say about the caller. -/
structure Caller where
  attached : Bool
  inband : Bool
  weak : Bool
  deriving DecidableEq, Repr

/-- Zero, `-EAGAIN`, `-EPERM` or `-ETIMEDOUT`. -/
inductive Ret
  | ok | again | perm | timedout
  deriving DecidableEq, Repr

/-- Where a thread stands. `val` is the local variable of that name, and
`putSignal` carries `sigval`. -/
inductive Pc
  | idle
  | putLoad
  | putPolled (val : ℤ)
  | putCas (val : ℤ)
  | putRecheck
  | putSignal (sigval : ℤ)
  | getLoad (f : Fn)
  | getCas (f : Fn) (val : ℤ)
  | wait
  | sleep
  deriving DecidableEq, Repr

/-- A thread, the last value returned to it, how often it has raised the value,
and how many puts and gets of it have succeeded. -/
structure Thread where
  pc : Pc
  ret : Ret
  raised : ℕ
  puts : ℕ
  gets : ℕ
  deriving DecidableEq, Repr

/-- `u.event` of `struct evl_monitor_state`. -/
structure Event where
  value : ℤ
  pollrefs : ℕ
  deriving DecidableEq, Repr

structure State (ι : Type*) where
  event : Event
  thread : ι → Thread

/-- `evl_create_sem`, with every thread outside of the operations. -/
def initial (ι : Type*) (initval : ℤ) : State ι where
  event := ⟨initval, 0⟩
  thread := fun _ => ⟨.idle, .ok, 0, 0, 0⟩

/-- What may happen to a thread. `spurious` makes a weak exchange fail although
the value matches, `signal` serves a `SIGNAL` request and says whom it wakes. -/
inductive Act (ι : Type*)
  | call (f : Fn) (c : Caller)
  | go
  | spurious
  | signal (wakes : Option ι)
  | timeout
  deriving DecidableEq, Repr

/-- A step of a thread, or of the pollers. -/
inductive Label (ι : Type*)
  | thread (i : ι) (a : Act ι)
  | pollrefs (n : ℕ)
  deriving DecidableEq, Repr

def Thread.returns (t : Thread) (r : Ret) : Thread := { t with pc := .idle, ret := r }

/-- A put has succeeded. -/
def Thread.posted (t : Thread) : Thread := { t.returns .ok with puts := t.puts + 1 }

/-- A get has been granted. -/
def Thread.granted (t : Thread) : Thread := { t.returns .ok with gets := t.gets + 1 }

/-- `try_get` has read `val`; its `-EAGAIN` sends `evl_timedget_sem` to the kernel. -/
def tryGet (f : Fn) (t : Thread) (val : ℤ) : Thread :=
  if val ≤ 0 then
    if f = .timedget then { t with pc := .wait } else t.returns .again
  else { t with pc := .getCas f val }

/-- The loop of `evl_put_sem`, once an exchange has failed and handed back `val`. -/
def retryPut (t : Thread) (val : ℤ) : Thread :=
  if val < 0 then { t with pc := .putSignal 1 } else { t with pc := .putCas val }

/-- The entry of an operation. -/
def enter (f : Fn) (c : Caller) (t : Thread) : Thread :=
  match f with
  | .put => { t with pc := .putLoad }
  | .tryget => { t with pc := .getLoad .tryget }
  | .timedget =>
    if ¬ c.attached then t.returns .perm
    else if ¬ c.inband ∨ c.weak then { t with pc := .getLoad .timedget }
    else { t with pc := .wait }

/-- One step of one thread by itself. -/
def threadStep {ι : Type*} (e : Event) (t : Thread) : Act ι → Option (Event × Thread)
  | .call f c => if t.pc = .idle then some (e, enter f c t) else none
  | .go =>
    match t.pc with
    | .putLoad =>
      if e.value < 0 then some (e, { t with pc := .putSignal 1 })
      else some (e, { t with pc := .putPolled e.value })
    | .putPolled val =>
      if e.pollrefs ≠ 0 then some (e, { t with pc := .putSignal 1 })
      else some (e, { t with pc := .putCas val })
    | .putCas val =>
      if e.value = val then
        some ({ e with value := narrow32 (val + 1) },
          { t with pc := .putRecheck, raised := t.raised + 1 })
      else some (e, retryPut t e.value)
    | .putRecheck =>
      if e.pollrefs ≠ 0 then some (e, { t with pc := .putSignal 0 })
      else some (e, t.posted)
    | .getLoad f => some (e, tryGet f t e.value)
    | .getCas f val =>
      if e.value = val then some ({ e with value := narrow32 (val - 1) }, t.granted)
      else some (e, tryGet f t e.value)
    | .wait =>
      -- the kernel decrements the value, and grants the get or puts the caller to sleep
      if e.value - 1 < 0 then some ({ e with value := e.value - 1 }, { t with pc := .sleep })
      else some ({ e with value := e.value - 1 }, t.granted)
    | _ => none
  | .spurious =>
    match t.pc with
    | .putCas val => if e.value = val then some (e, retryPut t e.value) else none
    | .getCas f val => if e.value = val then some (e, tryGet f t e.value) else none
    | _ => none
  | .timeout =>
    if t.pc = .sleep then some ({ e with value := e.value + 1 }, t.returns .timedout) else none
  | .signal _ => none

variable {ι : Type*} [Fintype ι] [DecidableEq ι]

/-- A `SIGNAL` request of the thread `i`, in-band or out-of-band, with `sigval` 1 or 0. -/
def signal (s : State ι) (i : ι) (sigval : ℤ) (wakes : Option ι) : Option (State ι) :=
  let t := s.thread i
  if sigval = 0 then
    if wakes = none then some { s with thread := Function.update s.thread i t.posted } else none
  else
    let event := { s.event with value := s.event.value + 1 }
    let thread := Function.update s.thread i { t.posted with raised := t.raised + 1 }
    match wakes with
    | some j =>
      if (s.thread j).pc = .sleep then
        some ⟨event, Function.update thread j (s.thread j).granted⟩
      else none
    | none => if ∀ j, (s.thread j).pc ≠ .sleep then some ⟨event, thread⟩ else none

/-- One step of the system. -/
def step (s : State ι) : Label ι → Option (State ι)
  | .thread i (.signal wakes) =>
    match (s.thread i).pc with
    | .putSignal sigval => signal s i sigval wakes
    | _ => none
  | .thread i a => (threadStep s.event (s.thread i) a).map fun r =>
    ⟨r.1, Function.update s.thread i r.2⟩
  | .pollrefs n => some { s with event := { s.event with pollrefs := n } }

def Thread.asleep (t : Thread) : ℕ := if t.pc = .sleep then 1 else 0

/-- Completed increments, granted gets and sleepers of all threads. -/
def raised (s : State ι) : ℕ := total Thread.raised s.thread
def gets (s : State ι) : ℕ := total Thread.gets s.thread
def sleepers (s : State ι) : ℕ := total Thread.asleep s.thread

/-- The tokens which have not been handed out. -/
def tokens (initval : ℤ) (s : State ι) : ℤ := initval + raised s - gets s

/-- The steps after which there are fewer than `2 ^ 31` tokens. -/
def Step (initval : ℤ) (s : State ι) (l : Label ι) (s' : State ι) : Prop :=
  step s l = some s' ∧ tokens initval s' < 2 ^ 31

/-- The steps of `Step initval`, computed. -/
def guarded (initval : ℤ) (s : State ι) (l : Label ι) : Option (State ι) :=
  (step s l).filter fun s' => tokens initval s' < 2 ^ 31

theorem step_of_guarded {initval : ℤ} {s s' : State ι} {l : Label ι}
    (h : guarded initval s l = some s') : Step initval s l s' := by
  obtain ⟨hs, hb⟩ := Option.filter_eq_some_iff.mp h
  exact ⟨hs, by simpa using hb⟩

end Libevl.Sem
