import Libevl.LockedObject
import Libevl.Mutex

/-!
# The mutex as a lock

A mutex which is not recursive lets in one thread at a time: whoever is back from
a successful lock owns it until its unlock is under way. An unlock that fails
leaves the mutex to its owner, which is then refused when it locks again.
-/
namespace Libevl.Mutex
open LockedObject Transition

variable {ι : Type*} [DecidableEq ι]

/-- A step inside of a call, or a step of the kernel. -/
def Label.inner : Label ι → Bool
  | .thread _ (.lock ..) | .thread _ (.unlock _) => false
  | _ => true

/-- `evl_lock_mutex` and `evl_unlock_mutex` as the calls of a lock. -/
def asLock (ι : Type*) [DecidableEq ι] : Lock ι (State ι) where
  run s s' := ∃ l : Label ι, l.inner = true ∧ step s l = some s'
  lock i s s' := ∃ mode, step s (.thread i (.lock .timedlock mode)) = some s'
  unlock i s s' := ∃ mode, step s (.thread i (.unlock mode)) = some s'
  returned i s := (s.thread i).pc = .idle
  granted i s := (s.thread i).ret = .ok

/-- A new mutex without `EVL_MUTEX_RECURSIVE`. -/
def NewPlain (s : State ι) : Prop := ∃ protocol, s = initial ι false protocol

/-- What a thread on its way in, inside or on its way out says about the owner word. -/
def Claims (g : Gate ι) (i : ι) (t : Thread) : Use → Prop
  | .out => t.pc = .idle
  | .locking =>
    match t.pc with
    | .idle => t.ret = .ok → g.owner = some i
    | .acquired _ => g.owner = some i
    | .fastLock .. | .checkOwner _ | .nest | .enter _ => True
    | _ => False
  | .inside => t.pc = .idle ∧ g.owner = some i
  | .leaving =>
    match t.pc with
    | .idle => True
    | .unlockOwner _ | .unlockNesting _ | .fastUnlock | .exit => g.owner = some i
    | _ => False

structure LockInv (u : ι → Use) (s : State ι) : Prop where
  plain : s.gate.recursive = false
  claims : ∀ i, Claims s.gate i (s.thread i) (u i)

section Steps

variable {g g' : Gate ι} {i : ι} {t t' : Thread} {use : Use} {s s' : State ι} {u : ι → Use}

omit [DecidableEq ι] in
/-- Only the owner word counts. -/
theorem Claims.congr (h : Claims g i t use) (ho : g.owner = some i → g'.owner = some i) :
    Claims g' i t use := by
  cases use with
  | out => exact h
  | locking =>
    unfold Claims at h ⊢
    dsimp only at h ⊢
    split at h
    · exact fun hr => ho (h hr)
    · exact ho h
    all_goals exact h
  | inside => exact ⟨h.1, ho h.2⟩
  | leaving =>
    unfold Claims at h ⊢
    dsimp only at h ⊢
    split at h
    · exact h
    all_goals first | exact ho h | exact h

/-- What a step inside of a call keeps: the claims of the thread, and the mutex of the others. -/
structure Respects (g : Gate ι) (i : ι) (use : Use) (o : Gate ι × Thread) : Prop where
  claims : Claims o.1 i o.2 use
  plain : o.1.recursive = false
  others : ∀ j, j ≠ i → g.owner = some j → o.1.owner = some j

omit [DecidableEq ι] in
/-- A step that leaves the owner word alone. -/
theorem respects_of_owner (ho : g'.owner = g.owner) (hp : g'.recursive = false)
    (h : Claims g' i t' use) : Respects g i use (g', t') :=
  ⟨h, hp, fun _ _ hj => ho.trans hj⟩

omit [DecidableEq ι] in
theorem respects_of_free (ho : g.owner = none) (hp : g'.recursive = false)
    (h : Claims g' i t' use) : Respects g i use (g', t') :=
  ⟨h, hp, fun _ _ hj => by simp [ho] at hj⟩

omit [DecidableEq ι] in
/-- The owner releases the mutex. -/
theorem respects_of_release (ho : g.owner = some i) (hp : g'.recursive = false)
    (h : Claims g' i t' use) : Respects g i use (g', t') :=
  ⟨h, hp, fun _ hj hj' => absurd (Option.some.inj (ho.symm.trans hj')).symm hj⟩

/-- A thread on its way in. -/
theorem locking_respects {a : Act} {o : Gate ι × Thread} (ha : (Label.thread i a).inner = true)
    (hp : g.recursive = false) (h : Claims g i t .locking) (ho : threadStep g i t a = some o) :
    Respects g i .locking o := by
  cases a with
  | lock => cases ha
  | unlock => cases ha
  | go =>
    cases hpc : t.pc with
    | fastLock f protect =>
      simp only [threadStep, hpc] at ho
      split_ifs at ho with hfree hmine
      · cases ho
        exact respects_of_free hfree.1 hp rfl
      · cases ho
        exact respects_of_owner rfl hp trivial
      · cases ho
        exact respects_of_owner rfl hp trivial
    | checkOwner f =>
      simp only [threadStep, hpc] at ho
      split_ifs at ho
      · cases ho
        exact respects_of_owner rfl hp trivial
      · cases ho
        exact respects_of_owner rfl hp trivial
    | nest =>
      simp only [threadStep, hpc, nestLock, hp] at ho
      cases ho
      refine respects_of_owner rfl hp ?_
      intro hret
      cases hret
    | enter f =>
      simp only [threadStep, hpc] at ho
      split_ifs at ho with hfree hf
      · cases ho
        exact respects_of_free hfree hp rfl
      · cases ho
        exact respects_of_free hfree hp fun _ => rfl
    | acquired fast =>
      have hmine : g.owner = some i := by simpa [Claims, hpc] using h
      simp only [threadStep, hpc] at ho
      cases ho
      exact respects_of_owner rfl hp fun _ => hmine
    | idle => simp [threadStep, hpc] at ho
    | unlockOwner | unlockNesting | fastUnlock | exit => simp [Claims, hpc] at h
  | eintr =>
    cases hpc : t.pc with
    | enter f =>
      simp only [threadStep, hpc] at ho
      cases ho
      exact respects_of_owner rfl hp h
    | _ => simp [threadStep, hpc] at ho
  | fail =>
    cases hpc : t.pc with
    | enter f =>
      simp only [threadStep, hpc] at ho
      cases ho
      refine respects_of_owner rfl hp ?_
      intro hret
      cases hret
    | exit => simp [Claims, hpc] at h
    | _ => simp [threadStep, hpc] at ho

/-- A thread on its way out, which owns the mutex until it is released. -/
theorem leaving_respects {a : Act} {o : Gate ι × Thread} (ha : (Label.thread i a).inner = true)
    (hp : g.recursive = false) (h : Claims g i t .leaving) (ho : threadStep g i t a = some o) :
    Respects g i .leaving o := by
  cases a with
  | lock => cases ha
  | unlock => cases ha
  | go =>
    cases hpc : t.pc with
    | unlockOwner mode =>
      have hmine : g.owner = some i := by simpa [Claims, hpc] using h
      simp only [threadStep, hpc, hmine, if_true] at ho
      cases ho
      exact respects_of_owner rfl hp hmine
    | unlockNesting mode =>
      have hmine : g.owner = some i := by simpa [Claims, hpc] using h
      simp only [threadStep, hpc, unlockNesting] at ho
      split_ifs at ho
      · cases ho
        exact respects_of_owner rfl hp trivial
      all_goals
        cases ho
        exact respects_of_owner rfl hp hmine
    | fastUnlock =>
      have hmine : g.owner = some i := by simpa [Claims, hpc] using h
      simp only [threadStep, hpc] at ho
      split_ifs at ho
      · cases ho
        exact respects_of_release hmine hp trivial
      · cases ho
        exact respects_of_owner rfl hp hmine
    | exit =>
      have hmine : g.owner = some i := by simpa [Claims, hpc] using h
      simp only [threadStep, hpc] at ho
      cases ho
      exact respects_of_release hmine hp trivial
    | idle => simp [threadStep, hpc] at ho
    | fastLock | checkOwner | nest | enter | acquired => simp [Claims, hpc] at h
  | eintr =>
    cases hpc : t.pc with
    | enter f => simp [Claims, hpc] at h
    | _ => simp [threadStep, hpc] at ho
  | fail =>
    cases hpc : t.pc with
    | exit =>
      simp only [threadStep, hpc] at ho
      cases ho
      exact respects_of_owner rfl hp trivial
    | enter f => simp [Claims, hpc] at h
    | _ => simp [threadStep, hpc] at ho

/-- A step inside of a call, whatever the thread uses the mutex for. -/
theorem threadStep_respects {a : Act} {o : Gate ι × Thread} (ha : (Label.thread i a).inner = true)
    (hp : g.recursive = false) (h : Claims g i t use) (ho : threadStep g i t a = some o) :
    Respects g i use o := by
  have hidle (hpc : t.pc = .idle) : Respects g i use o := by
    cases a with
    | lock => cases ha
    | unlock => cases ha
    | go => simp [threadStep, hpc] at ho
    | eintr => simp [threadStep, hpc] at ho
    | fail => simp [threadStep, hpc] at ho
  cases use with
  | out => exact hidle h
  | locking => exact locking_respects ha hp h ho
  | inside => exact hidle h.1
  | leaving => exact leaving_respects ha hp h ho

/-- The thread `i` moves, and may change what it uses the mutex for. -/
theorem LockInv.moved {o : Gate ι × Thread} (h : LockInv u s) (hr : Respects s.gate i use o) :
    LockInv (Function.update u i use) ⟨o.1, Function.update s.thread i o.2⟩ where
  plain := hr.plain
  claims j := by
    by_cases hj : j = i
    · subst hj
      simpa using hr.claims
    · simpa [Function.update_of_ne hj] using (h.claims j).congr (hr.others j hj)

/-- A thread that is back from a call uses the mutex for something else. -/
theorem LockInv.reused (h : LockInv u s) (hc : Claims s.gate i (s.thread i) use) :
    LockInv (Function.update u i use) s where
  plain := h.plain
  claims j := by
    by_cases hj : j = i
    · subst hj
      simpa using hc
    · simpa [Function.update_of_ne hj] using h.claims j

theorem LockInv.run (h : LockInv u s) {l : Label ι} (hl : l.inner = true) (hs : step s l = some s') :
    LockInv u s' := by
  cases l with
  | thread i a =>
    obtain ⟨o, ho, rfl⟩ := Option.map_eq_some_iff.mp hs
    simpa using h.moved (threadStep_respects hl h.plain (h.claims i) ho)
  | claimed b =>
    cases hs
    exact ⟨h.plain, fun j => (h.claims j).congr id⟩
  | signaled b =>
    cases hs
    exact ⟨h.plain, fun j => (h.claims j).congr id⟩
  | window i b =>
    cases hs
    refine ⟨h.plain, fun j => ?_⟩
    by_cases hj : j = i
    · subst hj
      simpa [Claims] using h.claims j
    · simpa [Function.update_of_ne hj] using h.claims j

omit [DecidableEq ι] in
/-- A call of `evl_lock_mutex` owns nothing yet. -/
theorem tryLock_claims {f : Fn} {mode : Mode} : Claims g i (tryLock g t f mode) .locking := by
  unfold tryLock
  split_ifs <;> trivial

end Steps

/-- A mutex that is not recursive excludes. -/
def exclusion (ι : Type*) [DecidableEq ι] : Exclusion (asLock ι) NewPlain where
  inv := LockInv
  started := by
    rintro _ ⟨protocol, rfl⟩
    exact ⟨rfl, fun _ => rfl⟩
  ran := by
    rintro u m m' h ⟨l, hl, hs⟩
    exact h.run hl hs
  locked := by
    rintro u i m m' h - ⟨mode, hs⟩
    obtain ⟨o, ho, rfl⟩ := Option.map_eq_some_iff.mp hs
    simp only [threadStep] at ho
    split_ifs at ho
    cases ho
    exact h.moved (respects_of_owner rfl h.plain tryLock_claims)
  refused := by
    intro u i m h hu hret hg
    refine h.reused ?_
    unfold Claims
    dsimp only
    rw [show (m.thread i).pc = .idle from hret]
    trivial
  entered := by
    intro u i m h hu hret hg
    have hc := h.claims i
    rw [hu] at hc
    unfold Claims at hc
    dsimp only at hc
    rw [show (m.thread i).pc = .idle from hret] at hc
    exact h.reused ⟨hret, hc hg⟩
  unlocked := by
    rintro u i m m' h hu ⟨mode, hs⟩
    have hc := h.claims i
    rw [hu] at hc
    obtain ⟨o, ho, rfl⟩ := Option.map_eq_some_iff.mp hs
    simp only [threadStep, hc.1, if_true] at ho
    cases ho
    exact h.moved (respects_of_owner rfl h.plain hc.2)
  left := by
    intro u i m h hu hret
    exact h.reused hret
  exclusive := by
    intro u i j m h hi hj
    have hci := h.claims i
    have hcj := h.claims j
    rw [hi] at hci
    rw [hj] at hcj
    exact Option.some.inj (hci.2.symm.trans hcj.2)

end Libevl.Mutex
