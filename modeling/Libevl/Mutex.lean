import Libevl.Transition

/-!
# The mutex as a step relation

The owner word of a mutex is shared with the kernel. A thread takes and releases
it in user space by a compare-exchange when its scheduling mode allows, and asks
the kernel otherwise. The nesting count beside it is kept by user space alone.
Every access to the owner word, every update of the count and every request to
the kernel is one step of one thread.
-/
namespace Libevl.Mutex
open Transition

/-- The bits of `__evl_get_current_mode` which matter. -/
structure Mode where
  inband : Bool
  weak : Bool
  woli : Bool
  deriving DecidableEq, Repr

/-- `EVL_GATE_PI` and `EVL_GATE_PP`. -/
inductive Protocol
  | pi | pp
  deriving DecidableEq, Repr

/-- `u.gate` of `struct evl_monitor_state`, its `EVL_MONITOR_SIGNALED` flag and the
protocol of the mutex. The owner word names the owner; `claimed` stands for the bits
which the kernel may set beside the handle. -/
structure Gate (ι : Type*) where
  owner : Option ι
  claimed : Bool
  nesting : ℕ
  recursive : Bool
  signaled : Bool
  protocol : Protocol

/-- The calls which lock; `evl_lock_mutex` is a `timedlock` without a limit. -/
inductive Fn
  | timedlock | trylock
  deriving DecidableEq, Repr

/-- Zero, `-EAGAIN`, `-EDEADLK`, `-EPERM` or the error of a failed request. -/
inductive Ret
  | ok | again | deadlk | perm | error
  deriving DecidableEq, Repr

/-- Where a thread stands. `protect` is the local variable of `try_lock`, and `fast` tells the
two ways of an acquisition apart. -/
inductive Pc
  | idle
  | fastLock (f : Fn) (protect : Bool)
  | checkOwner (f : Fn)
  | nest
  | enter (f : Fn)
  | acquired (fast : Bool)
  | unlockOwner (mode : Mode)
  | unlockNesting (mode : Mode)
  | fastUnlock
  | exit
  deriving DecidableEq, Repr

/-- A thread, the last value returned to it, whether `pp_pending` of its window is set, and
how many locks and unlocks of it have succeeded. -/
structure Thread where
  pc : Pc
  ret : Ret
  ppPending : Bool
  locks : ℕ
  unlocks : ℕ
  deriving DecidableEq, Repr

structure State (ι : Type*) where
  gate : Gate ι
  thread : ι → Thread

/-- `init_mutex_vargs` on a state of zeroes, with every thread outside of the calls. -/
def initial (ι : Type*) (recursive : Bool) (protocol : Protocol) : State ι where
  gate := ⟨none, false, 0, recursive, false, protocol⟩
  thread := fun _ => ⟨.idle, .ok, false, 0, 0⟩

/-- What a thread may do, in the mode it is in. `eintr` interrupts a request, which is then
issued again, and `fail` makes it return another error. -/
inductive Act
  | lock (f : Fn) (mode : Mode)
  | unlock (mode : Mode)
  | go
  | eintr
  | fail
  deriving DecidableEq, Repr

/-- A step of a thread; or the kernel changes the bits beside the owner or the signal flag; or
a window changes by what its thread does elsewhere. -/
inductive Label (ι : Type*)
  | thread (i : ι) (a : Act)
  | claimed (b : Bool)
  | signaled (b : Bool)
  | window (i : ι) (b : Bool)
  deriving DecidableEq, Repr

def Thread.returns (t : Thread) (r : Ret) : Thread := { t with pc := .idle, ret := r }

def Thread.locked (t : Thread) : Thread := { t.returns .ok with locks := t.locks + 1 }
def Thread.unlocked (t : Thread) : Thread := { t.returns .ok with unlocks := t.unlocks + 1 }

section Step

variable {ι : Type*} [DecidableEq ι]

/-- `try_lock`, up to the first access to the owner word. -/
def tryLock (g : Gate ι) (t : Thread) (f : Fn) (mode : Mode) : Thread :=
  if ¬ (mode.inband ∨ mode.weak ∨ mode.woli) then
    if g.protocol = .pp then
      if t.ppPending then { t with pc := .checkOwner f }
      else { t with pc := .fastLock f true, ppPending := true }
    else { t with pc := .fastLock f false }
  else { t with pc := .checkOwner f }

/-- `try_lock` by the owner. -/
def nestLock (g : Gate ι) (t : Thread) : Gate ι × Thread :=
  if g.recursive then
    let nesting := (g.nesting + 1) % 2 ^ 32
    if nesting = 0 then ({ g with nesting := 2 ^ 32 - 1 }, t.returns .again)
    else ({ g with nesting := nesting }, t.locked)
  else (g, t.returns .deadlk)

/-- `evl_unlock_mutex`, from the test of the count on. -/
def unlockNesting (g : Gate ι) (t : Thread) (mode : Mode) : Gate ι × Thread :=
  if 1 < g.nesting then ({ g with nesting := g.nesting - 1 }, t.unlocked)
  else if g.signaled then (g, { t with pc := .exit })
  else if mode.weak ∨ mode.woli then (g, { t with pc := .exit })
  else (g, { t with pc := .fastUnlock })

/-- One step of the thread `i`. -/
def threadStep (g : Gate ι) (i : ι) (t : Thread) : Act → Option (Gate ι × Thread)
  | .lock f mode => if t.pc = .idle then some (g, tryLock g t f mode) else none
  | .unlock mode => if t.pc = .idle then some (g, { t with pc := .unlockOwner mode }) else none
  | .go =>
    match t.pc with
    | .fastLock f protect =>
      if g.owner = none ∧ ¬ g.claimed then
        some ({ g with owner := some i }, { t with pc := .acquired true })
      else if g.owner = some i then
        some (g, { t with pc := .nest, ppPending := t.ppPending && !protect })
      else some (g, { t with pc := .enter f })
    | .checkOwner f =>
      if g.owner = some i then some (g, { t with pc := .nest })
      else some (g, { t with pc := .enter f })
    | .nest => some (nestLock g t)
    | .enter f =>
      -- `EVL_MONIOC_ENTER` and `EVL_MONIOC_TRYENTER` write the owner word only
      if g.owner = none then
        if f = .timedlock then
          some ({ g with owner := some i }, { t with pc := .acquired false })
        else some ({ g with owner := some i }, t.locked)
      else none
    | .acquired fast =>
      some ({ g with nesting := 1, signaled := g.signaled && !fast }, t.locked)
    | .unlockOwner mode =>
      if g.owner = some i then some (g, { t with pc := .unlockNesting mode })
      else some (g, t.returns .perm)
    | .unlockNesting mode => some (unlockNesting g t mode)
    | .fastUnlock =>
      if g.owner = some i ∧ ¬ g.claimed then
        some ({ g with owner := none },
          { t.unlocked with ppPending := t.ppPending && g.protocol ≠ .pp })
      else some (g, { t with pc := .exit })
    | .exit => some ({ g with owner := none, claimed := false }, t.unlocked)
    | _ => none
  | .eintr =>
    match t.pc with
    | .enter _ => some (g, t)
    | _ => none
  | .fail =>
    match t.pc with
    | .enter _ | .exit => some (g, t.returns .error)
    | _ => none

/-- One step of the system. -/
def step (s : State ι) : Label ι → Option (State ι)
  | .thread i a => (threadStep s.gate i (s.thread i) a).map fun r =>
    ⟨r.1, Function.update s.thread i r.2⟩
  | .claimed b => some { s with gate := { s.gate with claimed := b } }
  | .signaled b => some { s with gate := { s.gate with signaled := b } }
  | .window i b =>
    some { s with thread := Function.update s.thread i { s.thread i with ppPending := b } }

end Step

end Libevl.Mutex
