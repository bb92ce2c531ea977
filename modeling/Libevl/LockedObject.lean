import Libevl.Transition

/-!
# Objects behind a lock

Threads call the operations of an object. The code of an operation runs inside
a lock, one access after the other, while other threads call and wait. If the
lock never lets two threads in, what the callers see is what an object shows
whose operations take effect at once, at some moment between the call and the
return.
-/
namespace Libevl.LockedObject
open Transition

/-- What the callers of an object see. -/
inductive Event (ι Op R : Type*)
  | call (i : ι) (op : Op)
  | ret (i : ι) (r : R)
  deriving DecidableEq, Repr

/-- What an object is for: which operations its users may ask for, what they do, and what is
returned for an operation that is refused. -/
structure Spec (σ Op R : Type*) where
  allowed : σ → Op → Prop
  does : σ → Op → σ → R → Prop
  refuses : Op → R → Prop

section Atomic

variable {ι σ Op R : Type*} [DecidableEq ι]

/-- Where a caller stands. -/
inductive Phase (Op R : Type*)
  | idle
  | called (op : Op)
  | returning (r : R)

/-- An object and its callers. -/
structure Atomic (ι σ Op R : Type*) where
  obj : σ
  phase : ι → Phase Op R

/-- The operations take effect at once, or are refused. -/
inductive AtomicStep (spec : Spec σ Op R) :
    Atomic ι σ Op R → Option (Event ι Op R) → Atomic ι σ Op R → Prop
  | call {a : Atomic ι σ Op R} {i : ι} {op : Op} : a.phase i = .idle →
      AtomicStep spec a (some (.call i op)) ⟨a.obj, Function.update a.phase i (.called op)⟩
  | act {a : Atomic ι σ Op R} {i : ι} {op : Op} {x : σ} {r : R} : a.phase i = .called op →
      spec.allowed a.obj op → spec.does a.obj op x r →
      AtomicStep spec a none ⟨x, Function.update a.phase i (.returning r)⟩
  | refuse {a : Atomic ι σ Op R} {i : ι} {op : Op} {r : R} : a.phase i = .called op →
      spec.refuses op r →
      AtomicStep spec a none ⟨a.obj, Function.update a.phase i (.returning r)⟩
  | ret {a : Atomic ι σ Op R} {i : ι} {r : R} : a.phase i = .returning r →
      AtomicStep spec a (some (.ret i r)) ⟨a.obj, Function.update a.phase i .idle⟩

/-- Nobody has called yet. -/
def Atomic.Fresh (init : σ → Prop) (a : Atomic ι σ Op R) : Prop :=
  init a.obj ∧ a.phase = fun _ => .idle

/-- What the operations keep holds of the object. -/
theorem atomic_invariant {spec : Spec σ Op R} {init I : σ → Prop} (h₀ : ∀ x, init x → I x)
    (hs : ∀ x op x' r, I x → spec.allowed x op → spec.does x op x' r → I x')
    {a : Atomic ι σ Op R} (h : Reach (AtomicStep spec) (Atomic.Fresh init) a) : I a.obj := by
  refine h.invariant (I := fun a => I a.obj) (fun a ha => h₀ _ ha.1) fun a o a' hI hstep => ?_
  cases hstep with
  | call => exact hI
  | act _ ha hd => exact hs _ _ _ _ hI ha hd
  | refuse => exact hI
  | ret => exact hI

end Atomic

/-- The code of the operations, cut into accesses: what a thread holds when it has entered, what
an access does to that and to the object, and when there is a result. -/
structure Code (σ Op L R : Type*) where
  enter : Op → L
  access : L → σ → L × σ
  result : L → Option R

section Alone

variable {σ Op L R : Type*}

/-- The code runs without anybody else, from an object `x` on. -/
inductive Code.Alone (code : Code σ Op L R) (op : Op) (x : σ) : L → σ → Prop
  | enter : code.Alone op x (code.enter op) x
  | access {l : L} {y : σ} : code.Alone op x l y → code.result l = none →
      code.Alone op x (code.access l y).1 (code.access l y).2

/-- Without anybody else, the code does what it is for. -/
def Code.Implements (code : Code σ Op L R) (spec : Spec σ Op R) : Prop :=
  ∀ op x l y r, spec.allowed x op → code.Alone op x l y → code.result l = some r →
    spec.does x op y r

/-- An operation that reads the whole object first, and writes the whole of it last. -/
inductive Copy (σ Op R : Type*)
  | start (op : Op)
  | loaded (y : σ) (r : R)
  | stored (r : R)

/-- A function, which fails or computes a new object and a result, as code of two accesses. -/
def Code.ofFun (f : σ → Op → Option (σ × R)) : Code σ Op (Copy σ Op R) R where
  enter op := .start op
  access
    | .start op, x =>
      match f x op with
      | some (y, r) => (.loaded y r, x)
      | none => (.start op, x)
    | .loaded y r, _ => (.stored r, y)
    | .stored r, x => (.stored r, x)
  result
    | .stored r => some r
    | _ => none

/-- What is loaded and stored is what the function computes. -/
def Copy.Computed (f : σ → Op → Option (σ × R)) (op : Op) (x : σ) : Copy σ Op R → σ → Prop
  | .start o, y => o = op ∧ y = x
  | .loaded z r, y => y = x ∧ f x op = some (z, r)
  | .stored r, y => f x op = some (y, r)

theorem Copy.computed_of_alone {f : σ → Op → Option (σ × R)} {op : Op} {x y : σ} {l : Copy σ Op R}
    (h : (Code.ofFun f).Alone op x l y) : l.Computed f op x y := by
  induction h with
  | enter => exact ⟨rfl, rfl⟩
  | @access l y _ hnone ih =>
    cases l with
    | start o =>
      obtain ⟨rfl, rfl⟩ := ih
      cases hf : f y o with
      | none => simp [Code.ofFun, Copy.Computed, hf]
      | some p => simp [Code.ofFun, Copy.Computed, hf]
    | loaded z r => exact ih.2
    | stored r => simp [Code.ofFun] at hnone

/-- Such code does what the function does. -/
theorem Code.ofFun_implements {f : σ → Op → Option (σ × R)} {spec : Spec σ Op R}
    (h : ∀ x op y r, spec.allowed x op → f x op = some (y, r) → spec.does x op y r) :
    (Code.ofFun f).Implements spec := by
  intro op x l y r ha halone hr
  have hcomp := Copy.computed_of_alone halone
  cases l with
  | start o => simp [Code.ofFun] at hr
  | loaded z r => simp [Code.ofFun] at hr
  | stored r' =>
    obtain rfl : r' = r := by simpa [Code.ofFun] using hr
    exact h x op y r' ha hcomp

end Alone

/-- How a thread uses a lock. -/
inductive Use
  | out | locking | inside | leaving
  deriving DecidableEq, Repr

/-- A lock as its users see it: its own steps, the calls that lock and unlock, whether a thread
is back from its last call, and whether it got the lock then. -/
structure Lock (ι Λ : Type*) where
  run : Λ → Λ → Prop
  lock : ι → Λ → Λ → Prop
  unlock : ι → Λ → Λ → Prop
  returned : ι → Λ → Prop
  granted : ι → Λ → Prop

/-- An invariant of a lock and its users which shows that only one of them is inside. -/
structure Exclusion {ι Λ : Type*} [DecidableEq ι] (lock : Lock ι Λ) (start : Λ → Prop) where
  inv : (ι → Use) → Λ → Prop
  started {m : Λ} : start m → inv (fun _ => .out) m
  ran {u : ι → Use} {m m' : Λ} : inv u m → lock.run m m' → inv u m'
  locked {u : ι → Use} {i : ι} {m m' : Λ} : inv u m → u i = .out → lock.lock i m m' →
    inv (Function.update u i .locking) m'
  refused {u : ι → Use} {i : ι} {m : Λ} : inv u m → u i = .locking → lock.returned i m →
    ¬ lock.granted i m → inv (Function.update u i .leaving) m
  entered {u : ι → Use} {i : ι} {m : Λ} : inv u m → u i = .locking → lock.returned i m →
    lock.granted i m → inv (Function.update u i .inside) m
  unlocked {u : ι → Use} {i : ι} {m m' : Λ} : inv u m → u i = .inside → lock.unlock i m m' →
    inv (Function.update u i .leaving) m'
  left {u : ι → Use} {i : ι} {m : Λ} : inv u m → u i = .leaving → lock.returned i m →
    inv (Function.update u i .out) m
  exclusive {u : ι → Use} {i j : ι} {m : Λ} : inv u m → u i = .inside → u j = .inside → i = j

section Locked

variable {ι σ Op L R Λ : Type*} [DecidableEq ι]

/-- Where a caller of an object behind a lock stands. -/
inductive Place (Op L R : Type*)
  | idle
  | locking (op : Op)
  | inside (op : Op) (l : L)
  | leaving (r : R)

def Place.use : Place Op L R → Use
  | .idle => .out
  | .locking _ => .locking
  | .inside .. => .inside
  | .leaving _ => .leaving

def Place.phase : Place Op L R → Phase Op R
  | .idle => .idle
  | .locking op => .called op
  | .inside op _ => .called op
  | .leaving r => .returning r

/-- A lock, the object behind it and their users. -/
structure Locked (ι Λ σ Op L R : Type*) where
  mutex : Λ
  obj : σ
  place : ι → Place Op L R

/-- A caller locks, runs the code of its operation, unlocks and returns, and returns at once if
it does not get the lock. -/
inductive LockedStep (lock : Lock ι Λ) (code : Code σ Op L R) (spec : Spec σ Op R) :
    Locked ι Λ σ Op L R → Option (Event ι Op R) → Locked ι Λ σ Op L R → Prop
  | run {s : Locked ι Λ σ Op L R} {m : Λ} : lock.run s.mutex m →
      LockedStep lock code spec s none ⟨m, s.obj, s.place⟩
  | call {s : Locked ι Λ σ Op L R} {i : ι} {op : Op} {m : Λ} : s.place i = .idle →
      lock.lock i s.mutex m →
      LockedStep lock code spec s (some (.call i op))
        ⟨m, s.obj, Function.update s.place i (.locking op)⟩
  | refuse {s : Locked ι Λ σ Op L R} {i : ι} {op : Op} {r : R} : s.place i = .locking op →
      lock.returned i s.mutex → ¬ lock.granted i s.mutex → spec.refuses op r →
      LockedStep lock code spec s none ⟨s.mutex, s.obj, Function.update s.place i (.leaving r)⟩
  | enter {s : Locked ι Λ σ Op L R} {i : ι} {op : Op} : s.place i = .locking op →
      lock.returned i s.mutex → lock.granted i s.mutex → spec.allowed s.obj op →
      LockedStep lock code spec s none
        ⟨s.mutex, s.obj, Function.update s.place i (.inside op (code.enter op))⟩
  | access {s : Locked ι Λ σ Op L R} {i : ι} {op : Op} {l : L} : s.place i = .inside op l →
      code.result l = none →
      LockedStep lock code spec s none
        ⟨s.mutex, (code.access l s.obj).2,
          Function.update s.place i (.inside op (code.access l s.obj).1)⟩
  | unlock {s : Locked ι Λ σ Op L R} {i : ι} {op : Op} {l : L} {r : R} {m : Λ} :
      s.place i = .inside op l → code.result l = some r → lock.unlock i s.mutex m →
      LockedStep lock code spec s none ⟨m, s.obj, Function.update s.place i (.leaving r)⟩
  | ret {s : Locked ι Λ σ Op L R} {i : ι} {r : R} : s.place i = .leaving r →
      lock.returned i s.mutex →
      LockedStep lock code spec s (some (.ret i r))
        ⟨s.mutex, s.obj, Function.update s.place i .idle⟩

/-- Nobody has called yet. -/
def Locked.Fresh (start : Λ → Prop) (init : σ → Prop) (s : Locked ι Λ σ Op L R) : Prop :=
  start s.mutex ∧ init s.obj ∧ s.place = fun _ => .idle

/-- The object as of the last operation that is over: what a thread inside has done since then
is what its code does alone. -/
structure Simulates {lock : Lock ι Λ} {start : Λ → Prop} (ex : Exclusion lock start)
    (code : Code σ Op L R) (spec : Spec σ Op R) (s : Locked ι Λ σ Op L R)
    (a : Atomic ι σ Op R) : Prop where
  inv : ex.inv (fun i => (s.place i).use) s.mutex
  phase : ∀ i, a.phase i = (s.place i).phase
  rest : (∀ i, (s.place i).use ≠ .inside) → s.obj = a.obj
  alone : ∀ i op l, s.place i = .inside op l → spec.allowed a.obj op ∧ code.Alone op a.obj l s.obj

section Steps

variable {lock : Lock ι Λ} {start : Λ → Prop} {ex : Exclusion lock start} {code : Code σ Op L R}
  {spec : Spec σ Op R} {s : Locked ι Λ σ Op L R} {a : Atomic ι σ Op R} {i : ι} {p : Place Op L R}

theorem use_update (s : Locked ι Λ σ Op L R) (i : ι) (p : Place Op L R) :
    (fun j => (Function.update s.place i p j).use) =
      Function.update (fun j => (s.place j).use) i p.use := by
  ext j
  by_cases hj : j = i
  · subst hj
    simp
  · simp [Function.update_of_ne hj]

theorem phase_update (h : ∀ j, a.phase j = (s.place j).phase) (i : ι) (p : Place Op L R) (j : ι) :
    Function.update a.phase i p.phase j = (Function.update s.place i p j).phase := by
  by_cases hj : j = i
  · subst hj
    simp
  · simp [Function.update_of_ne hj, h j]

/-- A thread that is not inside and does not get inside moves. -/
theorem Simulates.outside {m : Λ} (h : Simulates ex code spec s a)
    (hinv : ex.inv (Function.update (fun j => (s.place j).use) i p.use) m)
    (hi : (s.place i).use ≠ .inside) (hp : p.use ≠ .inside) :
    Simulates ex code spec ⟨m, s.obj, Function.update s.place i p⟩
      ⟨a.obj, Function.update a.phase i p.phase⟩ where
  inv := by rwa [use_update]
  phase := phase_update h.phase i p
  rest hnone := by
    refine h.rest fun j => ?_
    by_cases hj : j = i
    · rwa [hj]
    · simpa [Function.update_of_ne hj] using hnone j
  alone j op l hj := by
    by_cases hji : j = i
    · subst hji
      simp only [Function.update_self] at hj
      simp [hj, Place.use] at hp
    · exact h.alone j op l (by simpa [Function.update_of_ne hji] using hj)

/-- While a thread is inside, nobody else is. -/
theorem Simulates.others (h : Simulates ex code spec s a) {op : Op} {l : L}
    (hi : s.place i = .inside op l) {j : ι} (hj : j ≠ i) : (s.place j).use ≠ .inside := by
  intro hin
  exact hj (ex.exclusive h.inv hin (by rw [hi]; rfl))

/-- A thread gets inside, or goes on there. -/
theorem Simulates.within {op : Op} {l : L} {x : σ} (h : Simulates ex code spec s a)
    (hinv : ex.inv (Function.update (fun j => (s.place j).use) i .inside) s.mutex)
    (hi : (s.place i).phase = .called op) (ha : spec.allowed a.obj op)
    (halone : code.Alone op a.obj l x) :
    Simulates ex code spec ⟨s.mutex, x, Function.update s.place i (.inside op l)⟩ a where
  inv := by
    rw [use_update]
    exact hinv
  phase j := by
    by_cases hj : j = i
    · subst hj
      simpa [Place.phase] using (h.phase j).trans hi
    · simpa [Function.update_of_ne hj] using h.phase j
  rest hnone := absurd (by simp [Place.use]) (hnone i)
  alone j o l' hj := by
    by_cases hji : j = i
    · subst hji
      obtain ⟨rfl, rfl⟩ : op = o ∧ l = l' := by simpa using hj
      exact ⟨ha, halone⟩
    · have hin : (s.place j).use = .inside := by
        simp only [Function.update_of_ne hji] at hj
        rw [hj]
        rfl
      exact absurd (ex.exclusive hinv (by simp [Function.update_of_ne hji, hin]) (by simp)) hji

/-- A thread is done inside: its operation takes effect. -/
theorem Simulates.over {op : Op} {l : L} {r : R} {m : Λ} (h : Simulates ex code spec s a)
    (hi : s.place i = .inside op l)
    (hinv : ex.inv (Function.update (fun j => (s.place j).use) i .leaving) m) :
    Simulates ex code spec ⟨m, s.obj, Function.update s.place i (.leaving r)⟩
      ⟨s.obj, Function.update a.phase i (.returning r)⟩ where
  inv := by
    rw [use_update]
    exact hinv
  phase := phase_update h.phase i (.leaving r)
  rest _ := rfl
  alone j o l' hj := by
    by_cases hji : j = i
    · subst hji
      simp at hj
    · simp only [Function.update_of_ne hji] at hj
      exact absurd (by rw [hj]; rfl) (h.others hi hji)

theorem simulates_step (hcode : code.Implements spec) (h : Simulates ex code spec s a)
    {o : Option (Event ι Op R)} {s' : Locked ι Λ σ Op L R}
    (hstep : LockedStep lock code spec s o s') :
    o = none ∧ Simulates ex code spec s' a ∨
      ∃ a', AtomicStep spec a o a' ∧ Simulates ex code spec s' a' := by
  have huse {i : ι} {p : Place Op L R} (hp : s.place i = p) : (s.place i).use = p.use := by rw [hp]
  have hphase {i : ι} {p : Place Op L R} (hp : s.place i = p) : a.phase i = p.phase := by
    rw [h.phase, hp]
  cases hstep with
  | run hr => exact .inl ⟨rfl, ex.ran h.inv hr, h.phase, h.rest, h.alone⟩
  | @call i op m hp hl =>
    refine .inr ⟨_, .call (hphase hp), h.outside (p := .locking op) ?_ ?_ ?_⟩
    · exact ex.locked h.inv (huse hp) hl
    · simp [hp, Place.use]
    · simp [Place.use]
  | @refuse i op r hp hret hg hr =>
    refine .inr ⟨_, .refuse (hphase hp) hr, h.outside (p := .leaving r) ?_ ?_ ?_⟩
    · exact ex.refused h.inv (huse hp) hret hg
    · simp [hp, Place.use]
    · simp [Place.use]
  | @enter i op hp hret hg ha =>
    have hinv := ex.entered h.inv (huse hp) hret hg
    -- nobody is inside, or the lock would have let in two
    have hobj : s.obj = a.obj := by
      refine h.rest fun j hj => ?_
      by_cases hji : j = i
      · subst hji
        simp [hp, Place.use] at hj
      · exact hji (ex.exclusive hinv (by simp [Function.update_of_ne hji, hj]) (by simp))
    refine .inl ⟨rfl, h.within hinv (by rw [hp]; rfl) (hobj ▸ ha) ?_⟩
    rw [hobj]
    exact .enter
  | @access i op l hp hnone =>
    obtain ⟨ha, halone⟩ := h.alone i op l hp
    refine .inl ⟨rfl, h.within ?_ (by rw [hp]; rfl) ha (halone.access hnone)⟩
    rw [Function.update_eq_self_iff.mpr (huse hp).symm]
    exact h.inv
  | @unlock i op l r m hp hr hl =>
    obtain ⟨ha, halone⟩ := h.alone i op l hp
    exact .inr ⟨_, .act (hphase hp) ha (hcode op _ l _ r ha halone hr),
      h.over hp (ex.unlocked h.inv (huse hp) hl)⟩
  | @ret i r hp hret =>
    refine .inr ⟨_, .ret (hphase hp), h.outside (p := .idle) ?_ ?_ ?_⟩
    · exact ex.left h.inv (huse hp) hret
    · simp [hp, Place.use]
    · simp [Place.use]

/-- Whatever the callers of the object behind the lock see, the callers of the atomic object may
see, and the object is the same whenever nobody is inside. -/
theorem locked_refines {init : σ → Prop} (ex : Exclusion lock start) (hcode : code.Implements spec)
    {es : List (Event ι Op R)} {s : Locked ι Λ σ Op L R}
    (h : Trace (LockedStep lock code spec) (Locked.Fresh start init) es s) :
    ∃ a, Trace (AtomicStep spec) (Atomic.Fresh init) es a ∧ Simulates ex code spec s a := by
  have hstep (s : Locked ι Λ σ Op L R) (o : Option (Event ι Op R)) (s' : Locked ι Λ σ Op L R)
      (a : Atomic ι σ Op R) (ha : Simulates ex code spec s a) (hs : LockedStep lock code spec s o s') :
      o = none ∧ Simulates ex code spec s' a ∨
        ∃ a', AtomicStep spec a o a' ∧ Simulates ex code spec s' a' :=
    simulates_step hcode ha hs
  refine h.simulate (fun s hs => ?_) hstep
  obtain ⟨hm, hx, hp⟩ := hs
  refine ⟨⟨s.obj, fun _ => .idle⟩, ⟨hx, rfl⟩, ?_, fun i => by rw [hp]; rfl, fun _ => rfl, ?_⟩
  · rw [hp]
    exact ex.started hm
  · intro i op l hi
    rw [hp] at hi
    cases hi

/-- What the operations keep holds whenever nobody is inside. -/
theorem locked_invariant {init I : σ → Prop} (ex : Exclusion lock start)
    (hcode : code.Implements spec) (h₀ : ∀ x, init x → I x)
    (hs : ∀ x op x' r, I x → spec.allowed x op → spec.does x op x' r → I x')
    {es : List (Event ι Op R)} {s : Locked ι Λ σ Op L R}
    (h : Trace (LockedStep lock code spec) (Locked.Fresh start init) es s)
    (hout : ∀ i, (s.place i).use ≠ .inside) : I s.obj := by
  obtain ⟨a, ha, hsim⟩ := locked_refines ex hcode h
  rw [hsim.rest hout]
  exact atomic_invariant h₀ hs ha.reach

end Steps

end Locked

end Libevl.LockedObject
