import Libevl.Mutex
import Mathlib.Order.Lattice

/-!
# Nesting of a recursive mutex

The count at rest is what the last owner left: one or, on a new mutex, zero. A
thread that takes the mutex sets it to one, except through `EVL_MONIOC_TRYENTER`.
From one on the count is the depth of the owner; an owner that nests on zero
counts one lock too few for the rest of its tenure.
-/
namespace Libevl.Mutex
open Transition

variable {ι : Type*} [DecidableEq ι]

def Pc.acquiring : Pc → Bool
  | .acquired _ => true
  | _ => false

/-- Whether the thread `i` owns the mutex as its locks and unlocks say: it does while an unlock
is missing, and otherwise only on its way into the mutex. -/
structure Nests (s : State ι) (i : ι) : Prop where
  held : (s.thread i).unlocks < (s.thread i).locks → s.gate.owner = some i
  owned : s.gate.owner = some i →
    (s.thread i).unlocks < (s.thread i).locks ∨ (s.thread i).pc.acquiring
  le : (s.thread i).unlocks ≤ (s.thread i).locks

/-- An owner that locks the mutex again does not find the count at zero. -/
def Counted (s : State ι) (l : Label ι) : Prop :=
  match l with
  | .thread i .go => (s.thread i).pc = .nest → s.gate.nesting ≠ 0
  | _ => True

instance (s : State ι) : (l : Label ι) → Decidable (Counted s l)
  | .thread i .go => inferInstanceAs (Decidable ((s.thread i).pc = .nest → s.gate.nesting ≠ 0))
  | .thread _ (.lock ..) | .thread _ (.unlock _) | .thread _ .eintr | .thread _ .fail |
    .claimed _ | .signaled _ | .window .. => inferInstanceAs (Decidable True)

/-- A thread which does not own the mutex. -/
def Thread.Out (t : Thread) : Prop :=
  t.locks = t.unlocks ∧
    match t.pc with
    | .nest | .acquired _ | .unlockNesting _ | .fastUnlock | .exit => False
    | _ => True

/-- The owner of the mutex, on a count of `nesting`. -/
def Thread.In (t : Thread) (nesting : ℕ) : Prop :=
  match t.pc with
  | .acquired _ => t.locks = t.unlocks ∧ nesting ≤ 1
  | .enter _ => False
  | .fastUnlock | .exit => t.locks = t.unlocks + 1 ∧ nesting ≤ 1
  | _ => t.locks = t.unlocks + max 1 nesting

/-- What the gate says about the thread `i`. -/
def Thread.Fits (g : Gate ι) (i : ι) (t : Thread) : Prop :=
  (g.owner = some i → t.In g.nesting) ∧ (g.owner ≠ some i → t.Out)

structure Inv (s : State ι) : Prop where
  rest : s.gate.owner = none → s.gate.nesting ≤ 1
  range : s.gate.nesting < 2 ^ 32
  thread : ∀ i, (s.thread i).Fits s.gate i

theorem Thread.In.lt {t : Thread} {n : ℕ} (h : t.In n) :
    t.unlocks < t.locks ∨ t.pc.acquiring := by
  unfold Thread.In at h
  split at h
  · simp_all [Pc.acquiring]
  · exact h.elim
  · exact .inl (by omega)
  · exact .inl (by omega)
  · exact .inl (by omega)

theorem Inv.nests {s : State ι} (h : Inv s) (i : ι) : Nests s i := by
  obtain ⟨hin, hout⟩ := h.thread i
  refine ⟨fun hlt => ?_, fun ho => (hin ho).lt, ?_⟩
  · by_contra hne
    have heq := (hout hne).1
    omega
  · by_cases ho : s.gate.owner = some i
    · have hI := hin ho
      unfold Thread.In at hI
      split at hI
      · omega
      · exact hI.elim
      · omega
      · omega
      · omega
    · exact (hout ho).1.ge

section Thread

variable {g : Gate ι} {i : ι} {t : Thread}

/-- A thread that moves keeps what the gate says about it and about the others. -/
structure Keeps (g : Gate ι) (i : ι) (o : Gate ι × Thread) : Prop where
  fits : o.2.Fits o.1 i
  rest : o.1.owner = none → o.1.nesting ≤ 1
  range : o.1.nesting < 2 ^ 32
  others : ∀ j, j ≠ i → (o.1.owner = some j ↔ g.owner = some j) ∧
    (g.owner = some j → o.1.nesting = g.nesting)

omit [DecidableEq ι] in
/-- What the gate says about a thread that is inside, or outside. -/
theorem fits_of_in (ho : g.owner = some i) (h : t.In g.nesting) : t.Fits g i :=
  ⟨fun _ => h, fun hne => absurd ho hne⟩

omit [DecidableEq ι] in
theorem fits_of_out (ho : g.owner ≠ some i) (h : t.Out) : t.Fits g i :=
  ⟨fun heq => absurd heq ho, fun _ => h⟩

omit [DecidableEq ι] in
/-- A thread that leaves the gate alone. -/
theorem keeps_of_fits {t' : Thread} (hrest : g.owner = none → g.nesting ≤ 1)
    (hrange : g.nesting < 2 ^ 32) (h : t'.Fits g i) : Keeps g i (g, t') :=
  ⟨h, hrest, hrange, fun _ _ => ⟨Iff.rfl, fun _ => rfl⟩⟩

omit [DecidableEq ι] in
/-- The owner updates the count, the flags and itself. -/
theorem keeps_of_owner {g' : Gate ι} {t' : Thread} (ho : g.owner = some i)
    (ho' : g'.owner = g.owner) (hrange : g'.nesting < 2 ^ 32) (h : t'.In g'.nesting) :
    Keeps g i (g', t') where
  fits := fits_of_in (ho'.trans ho) h
  rest hn := by simp [ho', ho] at hn
  range := hrange
  others j hj := by
    have hne : g.owner ≠ some j := by simpa [ho] using hj.symm
    exact ⟨by rw [ho'], fun heq => absurd heq hne⟩

omit [DecidableEq ι] in
/-- A thread takes the mutex. -/
theorem keeps_of_take {t' : Thread} (ho : g.owner = none) (hrange : g.nesting < 2 ^ 32)
    (h : t'.In g.nesting) : Keeps g i ({ g with owner := some i }, t') where
  fits := fits_of_in rfl h
  rest hn := by simp at hn
  range := hrange
  others j hj := by simp [ho, hj.symm]

omit [DecidableEq ι] in
/-- The owner releases the mutex. -/
theorem keeps_of_release {b : Bool} {t' : Thread} (ho : g.owner = some i)
    (hrange : g.nesting < 2 ^ 32) (hrest : g.nesting ≤ 1) (h : t'.Out) :
    Keeps g i ({ g with owner := none, claimed := b }, t') where
  fits := fits_of_out (by simp) h
  rest _ := hrest
  range := hrange
  others j hj := by simp [ho, hj.symm]

omit [DecidableEq ι] in
theorem tryLock_fits {f : Fn} {mode : Mode} (h : t.Fits g i) (ht : t.pc = .idle) :
    (tryLock g t f mode).Fits g i := by
  have hin : g.owner = some i → t.locks = t.unlocks + max 1 g.nesting := by
    simpa only [Thread.In, ht] using h.1
  have hout : g.owner ≠ some i → t.locks = t.unlocks := fun ho => (h.2 ho).1
  unfold tryLock
  split_ifs <;> exact ⟨hin, fun ho => ⟨hout ho, trivial⟩⟩

omit [DecidableEq ι] in
/-- An owner that nests on a count above zero counts one more. -/
theorem nestLock_keeps (ho : g.owner = some i) (hrange : g.nesting < 2 ^ 32)
    (h : t.locks = t.unlocks + max 1 g.nesting) (hn : g.nesting ≠ 0) :
    Keeps g i (nestLock g t) := by
  unfold nestLock
  split_ifs with hr
  · by_cases hz : (g.nesting + 1) % 2 ^ 32 = 0
    · have hmax : g.nesting = 2 ^ 32 - 1 := by omega
      simp only [hz, if_true]
      refine keeps_of_owner ho rfl (by dsimp only; omega) ?_
      change t.locks = t.unlocks + max 1 (2 ^ 32 - 1)
      rw [h, hmax]
    · simp only [hz, if_false]
      refine keeps_of_owner ho rfl (Nat.mod_lt _ (by decide)) ?_
      change t.locks + 1 = t.unlocks + max 1 ((g.nesting + 1) % 2 ^ 32)
      omega
  · exact keeps_of_owner ho rfl hrange h

omit [DecidableEq ι] in
/-- An unlock by the owner counts one less, or is about to release the mutex. -/
theorem unlockNesting_keeps {mode : Mode} (ho : g.owner = some i) (hrange : g.nesting < 2 ^ 32)
    (h : t.locks = t.unlocks + max 1 g.nesting) : Keeps g i (unlockNesting g t mode) := by
  unfold unlockNesting
  split_ifs with hn
  · refine keeps_of_owner ho rfl (by dsimp only; omega) ?_
    change t.locks = t.unlocks + 1 + max 1 (g.nesting - 1)
    omega
  all_goals exact keeps_of_owner ho rfl hrange ⟨by dsimp only; omega, by omega⟩

/-- A thread at a place which only an owner gets to. -/
theorem Thread.Fits.inside (h : t.Fits g i) (ht : ¬ t.Out) : g.owner = some i ∧ t.In g.nesting := by
  by_cases ho : g.owner = some i
  · exact ⟨ho, h.1 ho⟩
  · exact absurd (h.2 ho) ht

/-- One step of one thread, an owner which nests on a count of zero apart. -/
theorem threadStep_keeps {a : Act} {o : Gate ι × Thread} (hrest : g.owner = none → g.nesting ≤ 1)
    (hrange : g.nesting < 2 ^ 32) (h : t.Fits g i) (hn : t.pc = .nest → a = .go → g.nesting ≠ 0)
    (ho : threadStep g i t a = some o) : Keeps g i o := by
  cases a <;> simp only [threadStep] at ho
  case lock f mode =>
    split_ifs at ho with ht
    cases ho
    exact keeps_of_fits hrest hrange (tryLock_fits h ht)
  case unlock mode =>
    split_ifs at ho with ht
    cases ho
    refine keeps_of_fits hrest hrange ⟨fun hi => ?_, fun hi => ⟨(h.2 hi).1, trivial⟩⟩
    simpa only [Thread.In, ht] using h.1 hi
  case go =>
    split at ho
    case h_1 f protect ht =>
      split_ifs at ho with hfree hmine
      · cases ho
        have hout := h.2 (by simp [hfree.1])
        exact keeps_of_take hfree.1 hrange ⟨hout.1, hrest hfree.1⟩
      · cases ho
        have hin := h.1 hmine
        simp only [Thread.In, ht] at hin
        exact keeps_of_owner hmine rfl hrange hin
      · cases ho
        exact keeps_of_fits hrest hrange (fits_of_out hmine ⟨(h.2 hmine).1, trivial⟩)
    case h_2 f ht =>
      split_ifs at ho with hmine
      · cases ho
        have hin := h.1 hmine
        simp only [Thread.In, ht] at hin
        exact keeps_of_owner hmine rfl hrange hin
      · cases ho
        exact keeps_of_fits hrest hrange (fits_of_out hmine ⟨(h.2 hmine).1, trivial⟩)
    case h_3 ht =>
      cases ho
      obtain ⟨hmine, hin⟩ := h.inside (by simp [Thread.Out, ht])
      simp only [Thread.In, ht] at hin
      exact nestLock_keeps hmine hrange hin (hn ht rfl)
    case h_4 f ht =>
      split_ifs at ho with hfree hf
      · cases ho
        have hout := h.2 (by simp [hfree])
        exact keeps_of_take hfree hrange ⟨hout.1, hrest hfree⟩
      · cases ho
        have hout := h.2 (by simp [hfree])
        have hle := hrest hfree
        refine keeps_of_take hfree hrange ?_
        change t.locks + 1 = t.unlocks + max 1 g.nesting
        rw [hout.1, max_eq_left hle]
    case h_5 fast ht =>
      cases ho
      obtain ⟨hmine, hin⟩ := h.inside (by simp [Thread.Out, ht])
      simp only [Thread.In, ht] at hin
      refine keeps_of_owner hmine rfl (by dsimp only; omega) ?_
      change t.locks + 1 = t.unlocks + max 1 1
      rw [hin.1, max_self]
    case h_6 mode ht =>
      split_ifs at ho with hmine
      · cases ho
        have hin := h.1 hmine
        simp only [Thread.In, ht] at hin
        exact keeps_of_owner hmine rfl hrange hin
      · cases ho
        exact keeps_of_fits hrest hrange (fits_of_out hmine ⟨(h.2 hmine).1, trivial⟩)
    case h_7 mode ht =>
      cases ho
      obtain ⟨hmine, hin⟩ := h.inside (by simp [Thread.Out, ht])
      simp only [Thread.In, ht] at hin
      exact unlockNesting_keeps hmine hrange hin
    case h_8 ht =>
      obtain ⟨hmine, hin⟩ := h.inside (by simp [Thread.Out, ht])
      simp only [Thread.In, ht] at hin
      split_ifs at ho
      · cases ho
        exact keeps_of_release hmine hrange hin.2 ⟨hin.1, trivial⟩
      · cases ho
        exact keeps_of_owner hmine rfl hrange hin
    case h_9 ht =>
      cases ho
      obtain ⟨hmine, hin⟩ := h.inside (by simp [Thread.Out, ht])
      simp only [Thread.In, ht] at hin
      exact keeps_of_release hmine hrange hin.2 ⟨hin.1, trivial⟩
    case h_10 => cases ho
  case eintr =>
    split at ho <;> cases ho
    exact keeps_of_fits hrest hrange h
  case fail =>
    split at ho
    case h_1 f ht =>
      cases ho
      refine keeps_of_fits hrest hrange ⟨fun hi => ?_, fun hi => ⟨(h.2 hi).1, trivial⟩⟩
      have hin := h.1 hi
      simp only [Thread.In, ht] at hin
    case h_2 ht =>
      cases ho
      obtain ⟨hmine, hin⟩ := h.inside (by simp [Thread.Out, ht])
      simp only [Thread.In, ht] at hin
      refine keeps_of_owner hmine rfl hrange ?_
      change t.locks = t.unlocks + max 1 g.nesting
      rw [hin.1, max_eq_left hin.2]
    case h_3 => cases ho

end Thread

theorem step_inv {s s' : State ι} {l : Label ι} (h : Inv s) (hc : Counted s l)
    (hs : step s l = some s') : Inv s' := by
  cases l with
  | claimed b =>
    cases hs
    exact ⟨h.rest, h.range, h.thread⟩
  | signaled b =>
    cases hs
    exact ⟨h.rest, h.range, h.thread⟩
  | window i b =>
    cases hs
    refine ⟨h.rest, h.range, fun j => ?_⟩
    by_cases hj : j = i
    · subst hj
      simp only [Function.update_self]
      exact h.thread j
    · simpa only [Function.update_of_ne hj] using h.thread j
  | thread i a =>
    obtain ⟨o, ho, rfl⟩ := Option.map_eq_some_iff.mp hs
    have hn (hpc : (s.thread i).pc = .nest) (ha : a = .go) : s.gate.nesting ≠ 0 := by
      subst ha
      exact hc hpc
    have hk := threadStep_keeps h.rest h.range (h.thread i) hn ho
    refine ⟨hk.rest, hk.range, fun j => ?_⟩
    by_cases hj : j = i
    · subst hj
      simpa only [Function.update_self] using hk.fits
    · obtain ⟨howner, hnest⟩ := hk.others j hj
      obtain ⟨hin, hout⟩ := h.thread j
      simp only [Function.update_of_ne hj]
      refine ⟨fun hi => ?_, fun hi => hout fun hi' => hi (howner.mpr hi')⟩
      have hi' := howner.mp hi
      rw [hnest hi']
      exact hin hi'

/-- A mutex is owned as the locks and unlocks of its threads say, as long as no owner nests on
a count of zero. -/
theorem nests_of_counted {recursive : Bool} {protocol : Protocol} {s : State ι}
    (h : Reach (fun s l s' => Counted s l ∧ step s l = some s')
      (· = initial ι recursive protocol) s) (i : ι) : Nests s i := by
  refine (h.invariant (I := Inv) (fun t ht => ?_) fun _ _ _ hI hs =>
    step_inv hI hs.1 hs.2).nests i
  subst ht
  exact ⟨by simp [initial], by simp [initial], fun j =>
    ⟨fun ho => by simp [initial] at ho, fun _ => ⟨rfl, trivial⟩⟩⟩

/-- The steps of a replay. -/
def guarded (s : State ι) (l : Label ι) : Option (State ι) :=
  if Counted s l then step s l else none

/-- A call and the number of its further steps. -/
def does {n : ℕ} (i : Fin n) (a : Act) (k : ℕ) : List (Label (Fin n)) :=
  .thread i a :: List.replicate k (.thread i .go)

/-- Two locks in user space, the second one nested, and two unlocks. -/
def nestedRun : List (Label (Fin 1)) :=
  does 0 (.lock .timedlock ⟨false, false, false⟩) 2 ++
    does 0 (.lock .trylock ⟨false, true, false⟩) 2 ++
    does 0 (.unlock ⟨false, false, false⟩) 2 ++ does 0 (.unlock ⟨false, false, false⟩) 3

/-- The second unlock releases the mutex. -/
theorem nests_of_counted_nested : ∃ s : State (Fin 1),
    runs guarded (initial (Fin 1) true .pi) nestedRun = some s ∧ Nests s 0 := by
  obtain ⟨s, hs⟩ := Option.isSome_iff_exists.mp (by decide :
    (runs guarded (initial (Fin 1) true .pi) nestedRun).isSome = true)
  refine ⟨s, hs, nests_of_counted (reach_of_runs (fun _ _ _ _ hl => ?_) (.init rfl) hs) 0⟩
  simp only [guarded] at hl
  split_ifs at hl with hc
  exact ⟨hc, hl⟩

/-- A weakly scheduled thread takes a new mutex by a try, nests, and unlocks once. -/
def weakRun : List (Label (Fin 1)) :=
  does 0 (.lock .trylock ⟨false, true, false⟩) 2 ++
    does 0 (.lock .timedlock ⟨false, true, false⟩) 2 ++ does 0 (.unlock ⟨false, true, false⟩) 3

/-- The first of two unlocks releases a mutex that was taken through `EVL_MONIOC_TRYENTER`. -/
theorem not_nests_weak : ¬ ∀ s : State (Fin 1),
    Reach (fun s l s' => step s l = some s') (· = initial (Fin 1) true .pi) s → Nests s 0 := by
  intro h
  obtain ⟨s, hs, hd⟩ := Option.map_eq_some_iff.mp (by decide :
    (runs step (initial (Fin 1) true .pi) weakRun).map (fun s => (s.gate.owner, s.thread 0)) =
      some (none, ⟨.idle, .ok, false, 2, 1⟩))
  simp only [Prod.mk.injEq] at hd
  obtain ⟨ho, ht⟩ := hd
  have hheld := (h s (reach_of_runs (fun _ _ _ _ hl => hl) (.init rfl) hs)).held (by
    rw [ht]
    decide)
  rw [ho] at hheld
  cases hheld

end Libevl.Mutex
