import Libevl.HeapCheckBlock
import Libevl.HeapSafety
import Libevl.MutexLock

/-!
# The heap behind its mutex

`evl_alloc_block`, `evl_free_block`, `evl_check_block` and `evl_extend_heap` run
their unlocked counterparts between a lock and an unlock of the mutex of the
heap, and do nothing if they are refused the mutex. Whatever pieces the unlocked
functions are cut into, the threads see a heap whose operations are atomic, and
the blocks they hold are safe as if a single thread had made all the calls. The
users' writes to their blocks are left out.
-/
namespace Libevl.Heap
open LockedObject Mutex Transition

/-- A call of a thread. The block of a free is known by its address. -/
inductive Call
  | alloc (size : ℕ)
  | free (b : Block)
  | check (a : ℤ)
  | extend (raw : HeapExtent) (mem : ℤ) (size : ℕ)

/-- What is returned: a pointer, or a size or status. -/
inductive Result
  | block (p : Option ℤ)
  | status (x : ℤ)
  deriving DecidableEq, Repr

/-- The unlocked counterpart of a call. -/
def serve (c : Cfg) (s : State) : Call → Option (State × Result)
  | .alloc size =>
    match evlAllocBlockUnlocked c (s.heap.withUses []) size with
    | .ok (h, r) => some (⟨h, handOut r size s.live⟩, .block r)
    | .error _ => none
  | .free b =>
    match evlFreeBlockUnlocked c (s.heap.withUses []) b.addr with
    | .ok (h, r) => some (⟨h, giveBack r b s.live⟩, .status r)
    | .error _ => none
  | .check a =>
    match evlCheckBlockUnlocked c s.heap a with
    | .ok r => some (s, .status r)
    | .error _ => none
  | .extend raw mem size =>
    match evlExtendHeapUnlocked c (s.heap.withUses []) raw mem size with
    | .ok r => some (⟨r.getD (s.heap.withUses []), s.live⟩, .status (if r.isSome then 0 else -einval))
    | .error _ => none

/-- What a call returns when the mutex is refused: no block, or the error. -/
def TurnedAway : Call → Result → Prop
  | .alloc _, r => r = .block none
  | _, r => ∃ e < 0, r = .status e

/-- The heap as an object, with what its users may ask for. -/
def heapSpec (c : Cfg) (allowed : State → Call → Prop) : Spec State Call Result where
  allowed := allowed
  does s call s' r := serve c s call = some (s', r)
  refuses := TurnedAway

/-- Requests of one extent, and frees of live blocks. -/
def Allowed (c : Cfg) (s : State) : Call → Prop
  | .alloc size => size < 2 ^ 64 ∧ Handled c s.heap size
  | .free b => b ∈ s.live
  | .check _ => True
  | .extend .. => False

/-- What a call does is a step of the heap, unless it is a check. -/
theorem serve_step {c : Cfg} {s s' : State} {call : Call} {r : Result} (ha : Allowed c s call)
    (h : serve c s call = some (s', r)) : s' = s ∨ ∃ op, Single c s op ∧ Step c s op s' := by
  cases call with
  | alloc size =>
    simp only [serve] at h
    split at h
    · obtain ⟨rfl, -⟩ := Prod.mk.inj (Option.some.inj h)
      exact .inr ⟨.alloc size, ha.2, .alloc ha.1 ‹_›⟩
    · cases h
  | free b =>
    simp only [serve] at h
    split at h
    · obtain ⟨rfl, -⟩ := Prod.mk.inj (Option.some.inj h)
      exact .inr ⟨.free b, trivial, .free ha ‹_›⟩
    · cases h
  | check a =>
    simp only [serve] at h
    split at h
    · exact .inl (Prod.mk.inj (Option.some.inj h)).1.symm
    · cases h
  | extend raw mem size => exact ha.elim

section Threads

variable {ι L : Type*} [DecidableEq ι] {c : Cfg} {code : Code State Call L Result}
  {es : List (Event ι Call Result)}

/-- The threads see a heap whose operations take effect one at a time, each between its call and
its return. -/
theorem locked_heap_atomic {allowed : State → Call → Prop} {init : State → Prop}
    (hcode : code.Implements (heapSpec c allowed)) {s : Locked ι (Mutex.State ι) State Call L Result}
    (h : Trace (LockedStep (asLock ι) code (heapSpec c allowed)) (Locked.Fresh NewPlain init) es s) :
    ∃ a, Trace (AtomicStep (heapSpec c allowed)) (Atomic.Fresh init) es a ∧
      ((∀ i, (s.place i).use ≠ .inside) → s.obj = a.obj) := by
  obtain ⟨a, ha, hsim⟩ := locked_refines (exclusion ι) hcode h
  exact ⟨a, ha, hsim.rest⟩

/-- Blocks of one extent are safe for any number of threads whose requests are handled and which
free live blocks only. -/
theorem locked_heap_safe (hcode : code.Implements (heapSpec c (Allowed c)))
    {s : Locked ι (Mutex.State ι) State Call L Result}
    (h : Trace (LockedStep (asLock ι) code (heapSpec c (Allowed c)))
      (Locked.Fresh NewPlain (Initial c)) es s)
    (hout : ∀ i, (s.place i).use ≠ .inside) : BlockSafe s.obj := by
  have hinv : ∃ abs, Inv c s.obj abs ∧ abs.pairs.length = 1 := by
    refine locked_invariant (I := fun x => ∃ abs, Inv c x abs ∧ abs.pairs.length = 1)
      (exclusion ι) hcode ?_ ?_ h hout
    · intro x hx
      obtain ⟨ext, n, hi⟩ := initial_inv hx
      exact ⟨_, hi, rfl⟩
    · rintro x call x' r ⟨abs, hi, hone⟩ ha hdoes
      rcases serve_step ha hdoes with rfl | ⟨op, hs, hstep⟩
      · exact ⟨abs, hi, hone⟩
      · obtain ⟨abs', -, hi', hone'⟩ := single_spec hi hone hs hstep
        exact ⟨abs', hi', hone'⟩
  obtain ⟨abs, hi, -⟩ := hinv
  exact hi.blockSafe

end Threads

section Replay

variable {ι : Type*} [DecidableEq ι]

/-- The threads with an unlocked function that reads the whole heap first and writes it last. -/
abbrev Threads (ι : Type*) :=
  Locked ι (Mutex.State ι) State Call (Copy State Call Result) Result

/-- A step of a replay. -/
inductive Move (ι : Type*)
  | mutex (i : ι)
  | call (i : ι) (call : Call)
  | enter (i : ι)
  | access (i : ι)
  | unlock (i : ι)
  | ret (i : ι)

/-- An out-of-band thread. -/
def plain : Mode := ⟨false, false, false⟩

/-- Requests below 2^62 bytes, frees of live blocks and checks. -/
def Call.small (live : List Block) : Call → Bool
  | .alloc size => size < 2 ^ 62
  | .free b => b ∈ live
  | .check _ => true
  | .extend .. => false

/-- The steps of threads that make such calls. -/
def play (c : Cfg) (s : Threads ι) : Move ι → Option (Option (Event ι Call Result) × Threads ι)
  | .mutex i => (step s.mutex (.thread i .go)).map fun m => (none, ⟨m, s.obj, s.place⟩)
  | .call i op =>
    match s.place i with
    | .idle => (step s.mutex (.thread i (.lock .timedlock plain))).map fun m =>
      (some (.call i op), ⟨m, s.obj, Function.update s.place i (.locking op)⟩)
    | _ => none
  | .enter i =>
    match s.place i with
    | .locking op =>
      if (s.mutex.thread i).pc = .idle ∧ (s.mutex.thread i).ret = .ok ∧ op.small s.obj.live then
        some (none, ⟨s.mutex, s.obj, Function.update s.place i (.inside op (.start op))⟩)
      else none
    | _ => none
  | .access i =>
    match s.place i with
    | .inside op l =>
      match (Code.ofFun (serve c)).result l with
      | none =>
        let r := (Code.ofFun (serve c)).access l s.obj
        some (none, ⟨s.mutex, r.2, Function.update s.place i (.inside op r.1)⟩)
      | some _ => none
    | _ => none
  | .unlock i =>
    match s.place i with
    | .inside _ (.stored r) => (step s.mutex (.thread i (.unlock plain))).map fun m =>
      (none, ⟨m, s.obj, Function.update s.place i (.leaving r)⟩)
    | _ => none
  | .ret i =>
    match s.place i with
    | .leaving r =>
      if (s.mutex.thread i).pc = .idle then
        some (some (.ret i r), ⟨s.mutex, s.obj, Function.update s.place i .idle⟩)
      else none
    | _ => none

theorem allowed_of_small {c : Cfg} {s : State} {call : Call} (hc : c.exact = true)
    (h : call.small s.live = true) : Allowed c s call := by
  cases call with
  | alloc size =>
    have hsize : size < 2 ^ 62 := of_decide_eq_true h
    exact ⟨by omega, handled_of_exact hc hsize⟩
  | free b =>
    have hb : b ∈ s.live := of_decide_eq_true h
    exact hb
  | check a => trivial
  | extend raw mem size => exact absurd h Bool.false_ne_true

theorem play_step {c : Cfg} (hc : c.exact = true) {s s' : Threads ι} {m : Move ι}
    {o : Option (Event ι Call Result)} (h : play c s m = some (o, s')) :
    LockedStep (asLock ι) (Code.ofFun (serve c)) (heapSpec c (Allowed c)) s o s' := by
  cases m with
  | mutex i =>
    obtain ⟨m, hm, heq⟩ := Option.map_eq_some_iff.mp h
    obtain ⟨rfl, rfl⟩ := Prod.mk.inj heq
    exact .run ⟨_, rfl, hm⟩
  | call i op =>
    simp only [play] at h
    split at h
    · obtain ⟨m, hm, heq⟩ := Option.map_eq_some_iff.mp h
      obtain ⟨rfl, rfl⟩ := Prod.mk.inj heq
      exact .call ‹_› ⟨_, hm⟩
    · cases h
  | enter i =>
    simp only [play] at h
    split at h
    · split_ifs at h with hg
      obtain ⟨rfl, rfl⟩ := Prod.mk.inj (Option.some.inj h)
      exact .enter ‹_› hg.1 hg.2.1 (allowed_of_small hc hg.2.2)
    · cases h
  | access i =>
    simp only [play] at h
    split at h
    · split at h
      · obtain ⟨rfl, rfl⟩ := Prod.mk.inj (Option.some.inj h)
        exact .access ‹_› ‹_›
      · cases h
    · cases h
  | unlock i =>
    simp only [play] at h
    split at h
    · obtain ⟨m, hm, heq⟩ := Option.map_eq_some_iff.mp h
      obtain ⟨rfl, rfl⟩ := Prod.mk.inj heq
      exact .unlock ‹_› rfl ⟨_, hm⟩
    · cases h
  | ret i =>
    simp only [play] at h
    split at h
    · split_ifs at h with hg
      obtain ⟨rfl, rfl⟩ := Prod.mk.inj (Option.some.inj h)
      exact .ret ‹_› hg
    · cases h

/-- The second thread asks while the first one is inside. -/
def contended : List (Move (Fin 2)) :=
  [.call 0 (.alloc 100), .mutex 0, .mutex 0, .enter 0, .call 1 (.alloc 600), .mutex 1, .access 0,
    .access 0, .unlock 0, .mutex 0, .mutex 0, .mutex 0, .ret 0, .mutex 1, .mutex 1, .enter 1,
    .access 1, .access 1, .unlock 1, .mutex 1, .mutex 1, .mutex 1, .ret 1]

/-- What was returned, and to whom. -/
def returned (es : List (Event ι Call Result)) : List (ι × Result) :=
  es.filterMap fun
    | .ret i r => some (i, r)
    | .call .. => none

/-- The runs of two threads that make calls. -/
def LockedTrace : List (Event (Fin 2) Call Result) → Threads (Fin 2) → Prop :=
  Trace (LockedStep (asLock (Fin 2)) (Code.ofFun (serve ⟨true, true⟩))
    (heapSpec ⟨true, true⟩ (Allowed ⟨true, true⟩))) (Locked.Fresh NewPlain (Initial ⟨true, true⟩))

theorem contended_trace : ∃ es s, LockedTrace es s ∧
    returned es = [(0, .block (some 5328)), (1, .block (some 4304))] ∧
    ∀ i, (s.place i).use ≠ .inside := by
  have hrun : ((newHeap ⟨true, true⟩ 3 >>= fun x =>
      plays (play ⟨true, true⟩) ⟨initial (Fin 2) false .pi, x, fun _ => .idle⟩ contended).map
        fun r => (returned r.1, decide (∀ i, (r.2.place i).use ≠ .inside))) =
      some ([(0, .block (some 5328)), (1, .block (some 4304))], true) := by decide
  obtain ⟨⟨es, s⟩, hs, hout⟩ := Option.map_eq_some_iff.mp hrun
  obtain ⟨x, hx, hplays⟩ := Option.bind_eq_some_iff.mp hs
  obtain ⟨hret, hplace⟩ := Prod.mk.inj hout
  refine ⟨es, s, ?_, hret, of_decide_eq_true hplace⟩
  have hstep (s : Threads (Fin 2)) (m : Move (Fin 2)) (o : Option (Event (Fin 2) Call Result))
      (s' : Threads (Fin 2)) (h : play ⟨true, true⟩ s m = some (o, s')) :=
    play_step (c := ⟨true, true⟩) rfl h
  have hfresh : Trace (LockedStep (asLock (Fin 2)) (Code.ofFun (serve ⟨true, true⟩))
      (heapSpec ⟨true, true⟩ (Allowed ⟨true, true⟩))) (Locked.Fresh NewPlain (Initial ⟨true, true⟩))
      [] ⟨initial (Fin 2) false .pi, x, fun _ => .idle⟩ :=
    .init ⟨⟨.pi, rfl⟩, newHeap_initial hx (by decide), rfl⟩
  exact trace_of_plays hstep hfresh hplays

theorem locked_heap_atomic_contended : ∃ es s a, LockedTrace es s ∧
    returned es = [(0, .block (some 5328)), (1, .block (some 4304))] ∧
    Trace (AtomicStep (heapSpec ⟨true, true⟩ (Allowed ⟨true, true⟩)))
      (Atomic.Fresh (ι := Fin 2) (Initial ⟨true, true⟩)) es a ∧ s.obj = a.obj := by
  obtain ⟨es, s, htrace, hret, hout⟩ := contended_trace
  obtain ⟨a, ha, hobj⟩ := locked_heap_atomic (Code.ofFun_implements fun _ _ _ _ _ h => h) htrace
  exact ⟨es, s, a, htrace, hret, ha, hobj hout⟩

theorem locked_heap_safe_contended : ∃ es s, LockedTrace es s ∧
    returned es = [(0, .block (some 5328)), (1, .block (some 4304))] ∧ BlockSafe s.obj := by
  obtain ⟨es, s, htrace, hret, hout⟩ := contended_trace
  exact ⟨es, s, htrace, hret,
    locked_heap_safe (Code.ofFun_implements fun _ _ _ _ _ h => h) htrace hout⟩

end Replay

end Libevl.Heap
