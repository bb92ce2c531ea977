import Libevl.Transition

/-!
# The pointer ring as a step relation

A cell packs an entry and a pointer. The low bits of an entry are the occupied
bit and the unsafe bit, the rest is the cycle, a ticket whose low bits are
cleared. Tickets are unbounded. Every atomic load, store, fetch-and-add and
compare-exchange is one step of one thread; the local computation which follows
a load belongs to the same step. A weak compare-exchange may fail on a match.
-/
namespace Libevl.RingPtr
open Transition

/-- `__WORDSIZE`, of which only `EVL_RINGPTR_MINORDER` depends here. -/
inductive WordSize
  | w32 | w64
  deriving DecidableEq, Repr

/-- `EVL_RINGPTR_MINORDER` with 128-byte cache lines. -/
def WordSize.minOrder : WordSize → ℕ
  | .w32 => 7 - 3
  | .w64 => 7 - 4

/-- `a & ~b`. -/
def andNot (a b : ℕ) : ℕ := a - (a &&& b)

/-- `__evl_ringptr_cells`. -/
def cells (order : ℕ) : ℕ := 1 <<< (order + 1)

/-- `__evl_ringptr_map`. -/
def ringMap (w : WordSize) (order idx : ℕ) : ℕ :=
  ((idx &&& (cells order - 1)) >>> (order + 1 - w.minOrder)) |||
    ((idx <<< w.minOrder) &&& (cells order - 1))

/-- `x & ~(n - 1)`. -/
def cycle (order x : ℕ) : ℕ := andNot x (cells order - 1)

/-- `__evl_ringptr_threshold4`. -/
def threshold4 (order : ℕ) : ℤ := 2 * cells order - 1

/-- A value of the double-width word, taken apart. -/
structure Cell where
  entry : ℕ
  ptr : ℕ
  deriving DecidableEq, Repr

structure Ring where
  head : ℕ
  threshold : ℤ
  tail : ℕ
  array : ℕ → Cell

/-- `__evl_ringptr_clear`. -/
def ringClear (order : ℕ) : Ring where
  head := cells order
  threshold := -1
  tail := cells order
  array := fun _ => ⟨0, 0⟩

/-- Where a thread stands, with the locals it still needs. The prefix tells
`__evl_ringptr_enqueue` from `__evl_ringptr_dequeue`. -/
inductive Pc
  | idle
  | enqLoadTail (ptr : ℕ)
  | enqLoadHead (ptr tail : ℕ)
  | enqFetchTail (ptr : ℕ)
  | enqLoadCell (ptr tail : ℕ)
  | enqCheckHead (ptr tail : ℕ) (pair : Cell)
  | enqCas (ptr tail : ℕ) (pair : Cell)
  | enqLoadThreshold
  | enqStoreThreshold
  | enqReloadHead (ptr tail : ℕ)
  | deqLoadThreshold
  | deqFetchHead
  | deqLoadEntry (head : ℕ)
  | deqTake (head : ℕ)
  | deqCas (head entry : ℕ)
  | deqLoadTail (head : ℕ)
  | catchupCas (tail head : ℕ)
  | catchupHead
  | catchupTail (head : ℕ)
  | deqSubFail
  | deqSub
  deriving DecidableEq, Repr

/-- What the last operation of a thread returned. -/
inductive Ret
  | none
  | enqueued (ok : Bool)
  | dequeued (ptr : Option ℕ)
  deriving DecidableEq, Repr

/-- A thread with its write cursor. -/
structure Thread where
  pc : Pc
  cursor : ℕ
  ret : Ret
  deriving DecidableEq, Repr

/-- What has happened so far: the tickets and pointers of the enqueues that
stored, of the dequeues that returned true, and the head tickets given up. -/
structure Trace where
  stored : List (ℕ × ℕ)
  taken : List (ℕ × ℕ)
  skipped : List ℕ
  deriving DecidableEq, Repr

structure State (ι : Type*) where
  ring : Ring
  thread : ι → Thread
  trace : Trace

/-- A cleared ring, with every cursor set by `evl_init_cursor`. -/
def initial (ι : Type*) (order : ℕ) : State ι where
  ring := ringClear order
  thread := fun _ => ⟨.idle, cells order, .none⟩
  trace := ⟨[], [], []⟩

inductive Act
  | enqueue (ptr : ℕ)
  | dequeue
  | go
  | spurious
  deriving DecidableEq, Repr

def Thread.at (t : Thread) (pc : Pc) : Thread := { t with pc := pc }
def Thread.returns (t : Thread) (r : Ret) : Thread := { t with pc := .idle, ret := r }

/-- The end of the enqueue loop: the ticket is lost, and the cursor may be stale. -/
def enqNext (order : ℕ) (t : Thread) (ptr tail : ℕ) : Thread :=
  if t.cursor + cells order ≤ tail + 1 then t.at (.enqReloadHead ptr tail)
  else t.at (.enqFetchTail ptr)

/-- `retry:`, the test on the pair that was read last. -/
def enqRetry (order : ℕ) (t : Thread) (ptr tail : ℕ) (pair : Cell) : Thread :=
  let ecycle := cycle order pair.entry
  let tcycle := cycle order tail
  if ecycle < tcycle ∧ pair.entry = ecycle then t.at (.enqCas ptr tail pair)
  else if ecycle < tcycle ∧ pair.entry = ecycle ||| 0x2 then t.at (.enqCheckHead ptr tail pair)
  else enqNext order t ptr tail

/-- The entry a dequeue exchanges for the one it has read. -/
def entryNew (order head entry : ℕ) : ℕ :=
  if andNot entry 0x2 ≠ cycle order entry then entry ||| 0x2
  else cycle order head ||| (entry &&& 0x2)

/-- What the loop of the dequeue does with an entry. -/
inductive Verdict
  | take | skip | exchange
  deriving DecidableEq, Repr

/-- The body of the do-while loop, up to the compare-exchange. -/
def deqVerdict (order head entry : ℕ) : Verdict :=
  if cycle order entry = cycle order head then .take
  else if andNot entry 0x2 ≠ cycle order entry ∧ entry = entry ||| 0x2 then .skip
  else if cycle order entry < cycle order head then .exchange
  else .skip

/-- A thread and the effect of its step on the ring and the trace. -/
structure Effect where
  ring : Ring
  thread : Thread
  trace : Trace

/-- The dequeue goes on with the entry it has just read. -/
def deqCheck (order : ℕ) (r : Ring) (t : Thread) (g : Trace) (head entry : ℕ) : Effect :=
  match deqVerdict order head entry with
  | .take => ⟨r, t.at (.deqTake head), g⟩
  | .skip => ⟨r, t.at (.deqLoadTail head), { g with skipped := head :: g.skipped }⟩
  | .exchange => ⟨r, t.at (.deqCas head entry), g⟩

def Ring.set (r : Ring) (i : ℕ) (c : Cell) : Ring := { r with array := Function.update r.array i c }

/-- One atomic step of a thread inside an operation. `spurious` makes the weak
compare-exchange fail. -/
def threadStep (w : WordSize) (order : ℕ) (r : Ring) (t : Thread) (g : Trace) (spurious : Bool) :
    Option Effect :=
  let n := cells order
  match t.pc with
  | .idle => none
  | .enqLoadTail ptr =>
    if t.cursor + n ≤ r.tail then some ⟨r, t.at (.enqLoadHead ptr r.tail), g⟩
    else some ⟨r, t.at (.enqFetchTail ptr), g⟩
  | .enqLoadHead ptr tail =>
    let t := { t with cursor := r.head }
    if t.cursor + n ≤ tail then some ⟨r, t.returns (.enqueued false), g⟩
    else some ⟨r, t.at (.enqFetchTail ptr), g⟩
  | .enqFetchTail ptr =>
    some ⟨{ r with tail := r.tail + 1 }, t.at (.enqLoadCell ptr r.tail), g⟩
  | .enqLoadCell ptr tail =>
    some ⟨r, enqRetry order t ptr tail (r.array (ringMap w order tail)), g⟩
  | .enqCheckHead ptr tail pair =>
    if r.head ≤ tail then some ⟨r, t.at (.enqCas ptr tail pair), g⟩
    else some ⟨r, enqNext order t ptr tail, g⟩
  | .enqCas ptr tail pair =>
    let tidx := ringMap w order tail
    if ¬ spurious ∧ r.array tidx = pair then
      some ⟨r.set tidx ⟨cycle order tail ||| 0x1, ptr⟩, t.at .enqLoadThreshold,
        { g with stored := (tail, ptr) :: g.stored }⟩
    else some ⟨r, enqRetry order t ptr tail (r.array tidx), g⟩
  | .enqLoadThreshold =>
    if r.threshold ≠ threshold4 order then some ⟨r, t.at .enqStoreThreshold, g⟩
    else some ⟨r, t.returns (.enqueued true), g⟩
  | .enqStoreThreshold =>
    some ⟨{ r with threshold := threshold4 order }, t.returns (.enqueued true), g⟩
  | .enqReloadHead ptr tail =>
    let t := { t with cursor := r.head }
    if t.cursor + n ≤ tail + 1 then some ⟨r, t.returns (.enqueued false), g⟩
    else some ⟨r, t.at (.enqFetchTail ptr), g⟩
  | .deqLoadThreshold =>
    if r.threshold < 0 then some ⟨r, t.returns (.dequeued none), g⟩
    else some ⟨r, t.at .deqFetchHead, g⟩
  | .deqFetchHead =>
    some ⟨{ r with head := r.head + 1 }, t.at (.deqLoadEntry r.head), g⟩
  | .deqLoadEntry head =>
    some (deqCheck order r t g head (r.array (ringMap w order head)).entry)
  | .deqTake head =>
    let hidx := ringMap w order head
    let pair := r.array hidx
    some ⟨r.set hidx ⟨andNot pair.entry 0x1, 0⟩, t.returns (.dequeued (some pair.ptr)),
      { g with taken := (head, pair.ptr) :: g.taken }⟩
  | .deqCas head entry =>
    let hidx := ringMap w order head
    let pair := r.array hidx
    if ¬ spurious ∧ pair.entry = entry then
      some ⟨r.set hidx ⟨entryNew order head entry, pair.ptr⟩, t.at (.deqLoadTail head),
        { g with skipped := head :: g.skipped }⟩
    else some (deqCheck order r t g head pair.entry)
  | .deqLoadTail head =>
    if r.tail ≤ head + 1 then some ⟨r, t.at (.catchupCas r.tail (head + 1)), g⟩
    else some ⟨r, t.at .deqSub, g⟩
  | .catchupCas tail head =>
    if ¬ spurious ∧ r.tail = tail then some ⟨{ r with tail := head }, t.at .deqSubFail, g⟩
    else some ⟨r, t.at .catchupHead, g⟩
  | .catchupHead => some ⟨r, t.at (.catchupTail r.head), g⟩
  | .catchupTail head =>
    if head ≤ r.tail then some ⟨r, t.at .deqSubFail, g⟩
    else some ⟨r, t.at (.catchupCas r.tail head), g⟩
  | .deqSubFail =>
    some ⟨{ r with threshold := r.threshold - 1 }, t.returns (.dequeued none), g⟩
  | .deqSub =>
    if r.threshold ≤ 0 then
      some ⟨{ r with threshold := r.threshold - 1 }, t.returns (.dequeued none), g⟩
    else some ⟨{ r with threshold := r.threshold - 1 }, t.at .deqFetchHead, g⟩

variable {ι : Type*} [DecidableEq ι]

/-- One step of the system. -/
def step (w : WordSize) (order : ℕ) (s : State ι) (l : ι × Act) : Option (State ι) :=
  let t := s.thread l.1
  let call (pc : Pc) : Option (State ι) :=
    if t.pc = .idle then some { s with thread := Function.update s.thread l.1 (t.at pc) } else none
  let run (spurious : Bool) : Option (State ι) :=
    (threadStep w order s.ring t s.trace spurious).map fun e =>
      ⟨e.ring, Function.update s.thread l.1 e.thread, e.trace⟩
  match l.2 with
  | .enqueue ptr => call (.enqLoadTail ptr)
  | .dequeue => call .deqLoadThreshold
  | .go => run false
  | .spurious => run true

/-- The states of all interleavings on a cleared ring. -/
def Reachable (w : WordSize) (order : ℕ) (s : State ι) : Prop :=
  Reach (fun s l s' => step w order s l = some s') (· = initial ι order) s

end Libevl.RingPtr
