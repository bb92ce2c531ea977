import Mathlib.Algebra.Order.BigOperators.Group.Finset
import Mathlib.Algebra.Ring.Nat
import Mathlib.Data.Fintype.BigOperators

/-!
# Labelled runs and their invariants

A system is a relation between a state, a label and a next state. `Reach`
collects the states of all finite runs. An invariant is proved once for the
initial states and once for a single step. A history is a run with the steps it
took. A trace is what the steps of a run show, and a simulation carries it over.
The last sections count what many threads hold when one of them moves, and
follow tickets which are drawn once and used once.
-/
namespace Libevl.Transition

variable {σ α : Type*}

/-- The states of the finite runs of `R` which start in `init`. -/
inductive Reach (R : σ → α → σ → Prop) (init : σ → Prop) : σ → Prop
  | init {s : σ} : init s → Reach R init s
  | step {s s' : σ} {a : α} : Reach R init s → R s a s' → Reach R init s'

variable {R R' : σ → α → σ → Prop} {init : σ → Prop}

/-- The invariant rule: one obligation for the start, one for a step. -/
theorem Reach.invariant {I : σ → Prop} (h₀ : ∀ s, init s → I s)
    (hs : ∀ s a s', I s → R s a s' → I s') {s : σ} (h : Reach R init s) : I s := by
  induction h with
  | init h => exact h₀ _ h
  | step _ hr ih => exact hs _ _ _ ih hr

/-- A run whose steps meet a stronger guard is a run. -/
theorem Reach.mono (hR : ∀ s a s', R s a s' → R' s a s') {s : σ} (h : Reach R init s) :
    Reach R' init s := by
  induction h with
  | init h => exact .init h
  | step _ hr ih => exact .step ih (hR _ _ _ hr)

/-- Folds a list of labels through a step function that may refuse a label. -/
def runs (step : σ → α → Option σ) : σ → List α → Option σ
  | s, [] => some s
  | s, a :: as => (step s a).bind fun s' => runs step s' as

/-- What a replayed list of labels reaches, when every step of it is admitted. -/
theorem reach_of_runs {step : σ → α → Option σ} {as : List α}
    (hR : ∀ a ∈ as, ∀ s s', step s a = some s' → R s a s') {s s' : σ}
    (h : Reach R init s) (hs : runs step s as = some s') : Reach R init s' := by
  induction as generalizing s with
  | nil => cases hs; exact h
  | cons a as ih =>
    obtain ⟨t, ht, hs⟩ := Option.bind_eq_some_iff.mp hs
    exact ih (fun b hb => hR b (List.mem_cons_of_mem a hb))
      (h.step (hR a List.mem_cons_self _ _ ht)) hs

/-- What every label of a replayed list preserves holds at its end. -/
theorem runs_invariant {step : σ → α → Option σ} {I : σ → Prop} {as : List α}
    (h : ∀ a ∈ as, ∀ s s', I s → step s a = some s' → I s') {s s' : σ} (hs : I s)
    (hr : runs step s as = some s') : I s' := by
  induction as generalizing s with
  | nil => cases hr; exact hs
  | cons a as ih =>
    obtain ⟨t, ht, hr⟩ := Option.bind_eq_some_iff.mp hr
    exact ih (fun b hb => h b (List.mem_cons_of_mem a hb)) (h a List.mem_cons_self _ _ hs ht) hr

section Histories

/-- One step of a run, with the states on both sides. -/
structure Turn (σ α : Type*) where
  before : σ
  label : α
  after : σ

/-- The finite runs of `R` which start in `init`, with their steps in order. -/
inductive History (R : σ → α → σ → Prop) (init : σ → Prop) : List (Turn σ α) → σ → Prop
  | init {s : σ} : init s → History R init [] s
  | step {ts : List (Turn σ α)} {s s' : σ} {a : α} :
      History R init ts s → R s a s' → History R init (ts ++ [⟨s, a, s'⟩]) s'

/-- The steps of a replayed list of labels, and where they lead. -/
def turns (step : σ → α → Option σ) : σ → List α → Option (List (Turn σ α) × σ)
  | s, [] => some ([], s)
  | s, a :: as => (step s a).bind fun t =>
    (turns step t as).map fun r => (⟨s, a, t⟩ :: r.1, r.2)

theorem history_of_turns {step : σ → α → Option σ} {as : List α}
    (hR : ∀ s a t, step s a = some t → R s a t) {ts us : List (Turn σ α)} {s t : σ}
    (h : History R init ts s) (hs : turns step s as = some (us, t)) :
    History R init (ts ++ us) t := by
  induction as generalizing ts us s with
  | nil =>
    obtain ⟨rfl, rfl⟩ := Prod.mk.inj (Option.some.inj hs)
    simpa using h
  | cons a as ih =>
    obtain ⟨u, hu, hs⟩ := Option.bind_eq_some_iff.mp hs
    obtain ⟨⟨vs, v⟩, hv, hs⟩ := Option.map_eq_some_iff.mp hs
    obtain ⟨rfl, rfl⟩ := Prod.mk.inj hs
    simpa using ih (h.step (hR _ _ _ hu)) hv

end Histories

section Traces

variable {τ ε : Type*} {R : σ → Option ε → σ → Prop} {S : τ → Option ε → τ → Prop}
  {init : σ → Prop} {start : τ → Prop}

/-- The finite runs whose steps may show an event, with the events that were shown. -/
inductive Trace (R : σ → Option ε → σ → Prop) (init : σ → Prop) : List ε → σ → Prop
  | init {s : σ} : init s → Trace R init [] s
  | step {es : List ε} {s s' : σ} {o : Option ε} :
      Trace R init es s → R s o s' → Trace R init (es ++ o.toList) s'

theorem Trace.reach {es : List ε} {s : σ} (h : Trace R init es s) : Reach R init s := by
  induction h with
  | init h => exact .init h
  | step _ hr ih => exact .step ih hr

/-- The simulation rule: a step is matched by a step that shows the same, or shows nothing and
is matched by none. -/
theorem Trace.simulate {sim : σ → τ → Prop} (h₀ : ∀ s, init s → ∃ t, start t ∧ sim s t)
    (hs : ∀ s o s' t, sim s t → R s o s' →
      o = none ∧ sim s' t ∨ ∃ t', S t o t' ∧ sim s' t')
    {es : List ε} {s : σ} (h : Trace R init es s) : ∃ t, Trace S start es t ∧ sim s t := by
  induction h with
  | init h =>
    obtain ⟨t, ht, hsim⟩ := h₀ _ h
    exact ⟨t, .init ht, hsim⟩
  | @step es s s' o _ hr ih =>
    obtain ⟨t, ht, hsim⟩ := ih
    rcases hs s o s' t hsim hr with ⟨rfl, hsim'⟩ | ⟨t', hr', hsim'⟩
    · exact ⟨t, by simpa using ht, hsim'⟩
    · exact ⟨t', ht.step hr', hsim'⟩

/-- Folds a list of labels through a step function which also tells what a step shows. -/
def plays (step : σ → α → Option (Option ε × σ)) : σ → List α → Option (List ε × σ)
  | s, [] => some ([], s)
  | s, a :: as => do
    let (o, t) ← step s a
    let (es, u) ← plays step t as
    return (o.toList ++ es, u)

/-- What a list of labels shows is a trace, when every step of it is admitted. -/
theorem trace_of_plays {step : σ → α → Option (Option ε × σ)} {as : List α}
    (hR : ∀ s a o t, step s a = some (o, t) → R s o t) {es fs : List ε} {s t : σ}
    (h : Trace R init es s) (hs : plays step s as = some (fs, t)) : Trace R init (es ++ fs) t := by
  induction as generalizing es fs s with
  | nil =>
    obtain ⟨rfl, rfl⟩ := Prod.mk.inj (Option.some.inj hs)
    simpa using h
  | cons a as ih =>
    obtain ⟨⟨o, u⟩, hu, hs⟩ := Option.bind_eq_some_iff.mp hs
    obtain ⟨⟨gs, v⟩, hv, hs⟩ := Option.bind_eq_some_iff.mp hs
    obtain ⟨rfl, rfl⟩ := Prod.mk.inj (Option.some.inj hs)
    simpa using ih (h.step (hR _ _ _ _ hu)) hv

end Traces

section Settling

variable {step : σ → α → Option σ} {L : α → Prop} {a : α} {done Q Q' : σ → Prop} {s : σ}

/-- Whatever labels of `L` have been taken from `s`, the label `a`, repeated, goes on to a
state that is done and in `Q`. -/
def Settles (step : σ → α → Option σ) (L : α → Prop) (a : α) (done Q : σ → Prop) (s : σ) : Prop :=
  ∀ as, (∀ b ∈ as, L b) → ∀ s', runs step s as = some s' →
    ∃ k s'', runs step s' (List.replicate k a) = some s'' ∧ done s'' ∧ Q s''

theorem Settles.mono (h : Settles step L a done Q s) (hQ : ∀ s, Q s → Q' s) :
    Settles step L a done Q' s := by
  intro as has s' hs'
  obtain ⟨k, s'', hk, hd, hq⟩ := h as has s' hs'
  exact ⟨k, s'', hk, hd, hQ s'' hq⟩

/-- A run that is done is in `Q`. -/
theorem Settles.of_done (hd : ∀ s, done s → step s a = none) (h : Settles step L a done Q s)
    {as : List α} (has : ∀ b ∈ as, L b) {s' : σ} (hr : runs step s as = some s')
    (hs : done s') : Q s' := by
  obtain ⟨k, s'', hk, -, hq⟩ := h as has s' hr
  cases k with
  | zero =>
    cases hk
    exact hq
  | succ k => simp [List.replicate_succ, runs, hd s' hs] at hk

/-- A run that settles has one outcome. -/
theorem Settles.unique (ha : L a) (hd : ∀ s, done s → step s a = none)
    (h : Settles step L a done Q s) (h' : Settles step L a done Q' s) : ∃ s', Q s' ∧ Q' s' := by
  obtain ⟨k, s', hk, hs, hq⟩ := h [] (by simp) s rfl
  refine ⟨s', hq, h'.of_done hd (fun b hb => ?_) hk hs⟩
  exact List.eq_of_mem_replicate hb ▸ ha

/-- The termination rule: an invariant of all labels, and a measure which `a` lowers. -/
theorem settles_of_measure {I : σ → Prop} (m : σ → ℕ) (hd : ∀ s, done s → ∀ b, L b → step s b = none)
    (hkeep : ∀ s, I s → ¬ done s → ∀ b, L b → ∃ s', step s b = some s' ∧ I s' ∧
      (b = a → m s' < m s))
    (ha : L a) (hQ : ∀ s, I s → done s → Q s) (hs : I s) : Settles step L a done Q s := by
  intro as has s' hr
  have hI : I s' := by
    refine runs_invariant (fun b hb t t' ht hstep => ?_) hs hr
    by_cases hdone : done t
    · simp [hd t hdone b (has b hb)] at hstep
    · obtain ⟨t'', ht'', hI, -⟩ := hkeep t ht hdone b (has b hb)
      rw [hstep, Option.some.injEq] at ht''
      exact ht'' ▸ hI
  clear hr
  induction hm : m s' using Nat.strong_induction_on generalizing s' with
  | _ n ih =>
    by_cases hdone : done s'
    · exact ⟨0, s', rfl, hdone, hQ s' hI hdone⟩
    · obtain ⟨t, ht, hIt, hlt⟩ := hkeep s' hI hdone a ha
      obtain ⟨k, s'', hk, hd', hq⟩ := ih (m t) (hm ▸ hlt rfl) t hIt rfl
      exact ⟨k + 1, s'', by rw [List.replicate_succ, runs, ht, Option.bind_some, hk], hd', hq⟩

end Settling

section Numerals

/-- Replayed runs have two or three threads, which are written as numerals. -/
instance neZero_two : NeZero 2 := ⟨two_ne_zero⟩

instance neZero_three : NeZero 3 := ⟨three_ne_zero⟩

end Numerals

section Counting

variable {ι τ : Type*} [Fintype ι] [DecidableEq ι]

/-- The sum of the weights of all threads. -/
def total (w : τ → ℕ) (f : ι → τ) : ℕ := ∑ i, w (f i)

/-- What the threads other than `i` add to a total. -/
def others (w : τ → ℕ) (f : ι → τ) (i : ι) : ℕ := ∑ j ∈ Finset.univ.erase i, w (f j)

theorem total_eq (w : τ → ℕ) (f : ι → τ) (i : ι) : total w f = others w f i + w (f i) :=
  (Finset.sum_erase_add _ _ (Finset.mem_univ i)).symm

/-- Only the thread that moves changes the total. -/
theorem total_update (w : τ → ℕ) (f : ι → τ) (i : ι) (t : τ) :
    total w (Function.update f i t) = others w f i + w t := by
  rw [total_eq w _ i, Function.update_self]
  congr 1
  refine Finset.sum_congr rfl fun j hj => ?_
  rw [Function.update_of_ne (Finset.ne_of_mem_erase hj)]

/-- Two threads move at once. -/
theorem total_update_two (w : τ → ℕ) (f : ι → τ) {i j : ι} (hij : i ≠ j) (a b : τ) :
    total w (Function.update (Function.update f i a) j b) + (w (f i) + w (f j)) =
      total w f + (w a + w b) := by
  have hi := total_update w f i a
  have hj := total_update w (Function.update f i a) j b
  have hi' := total_eq w f i
  have hj' := total_eq w (Function.update f i a) j
  rw [Function.update_of_ne hij.symm] at hj'
  omega

theorem le_total (w : τ → ℕ) (f : ι → τ) (i : ι) : w (f i) ≤ total w f := by
  rw [total_eq w f i]
  omega

/-- Two different threads are counted separately. -/
theorem add_le_total (w : τ → ℕ) (f : ι → τ) {i j : ι} (hij : i ≠ j) :
    w (f i) + w (f j) ≤ total w f := by
  have hj : j ∈ Finset.univ.erase i := Finset.mem_erase.mpr ⟨hij.symm, Finset.mem_univ j⟩
  have h : w (f j) ≤ others w f i :=
    Finset.single_le_sum (f := fun k => w (f k)) (fun _ _ => Nat.zero_le _) hj
  rw [total_eq w f i]
  omega

omit [DecidableEq ι] in
/-- A map that keeps every weight keeps the total. -/
theorem total_congr {w : τ → ℕ} {f g : ι → τ} (h : ∀ i, w (f i) = w (g i)) :
    total w f = total w g :=
  Finset.sum_congr rfl fun i _ => h i

omit [DecidableEq ι] in
theorem total_le_card {w : τ → ℕ} {f : ι → τ} (h : ∀ i, w (f i) ≤ 1) :
    total w f ≤ Fintype.card ι := by
  calc
    total w f ≤ ∑ _i : ι, 1 := Finset.sum_le_sum fun i _ => h i
    _ = Fintype.card ι := (Finset.card_eq_sum_ones Finset.univ).symm

theorem others_lt_card {w : τ → ℕ} {f : ι → τ} (h : ∀ i, w (f i) ≤ 1) (i : ι) :
    others w f i < Fintype.card ι := by
  have hcard : (Finset.univ.erase i).card < Fintype.card ι :=
    Finset.card_erase_lt_of_mem (Finset.mem_univ i)
  calc
    others w f i ≤ ∑ _j ∈ Finset.univ.erase i, 1 := Finset.sum_le_sum fun j _ => h j
    _ = (Finset.univ.erase i).card := (Finset.card_eq_sum_ones _).symm
    _ < Fintype.card ι := hcard

end Counting

section Tickets

variable {ι : Type*}

/-- The tickets which the threads have drawn below `hi` and not used yet. -/
structure Drawn (own : ι → Option ℕ) (used : ℕ → Prop) (lo hi : ℕ) : Prop where
  range (i : ι) (t : ℕ) : own i = some t → lo ≤ t ∧ t < hi ∧ ¬ used t
  inj (i j : ι) (t : ℕ) : own i = some t → own j = some t → i = j

/-- One thread draws a fresh ticket, keeps the one it has or uses it up. -/
theorem Drawn.update [DecidableEq ι] {own : ι → Option ℕ} {used used' : ℕ → Prop} {lo hi hi' : ℕ}
    (h : Drawn own used lo hi) (hlo : lo ≤ hi) (hu : ∀ t, used t → t < hi) (hhi : hi ≤ hi')
    {i : ι} {o : Option ℕ}
    (hnew : ∀ t, o = some t → own i = some t ∨ hi ≤ t ∧ t < hi')
    (hused : ∀ t, used' t → used t ∨ own i = some t ∧ o = none) :
    Drawn (Function.update own i o) used' lo hi' := by
  have hother {j : ι} {t : ℕ} (hji : j ≠ i) (hj : own j = some t) : o ≠ some t := by
    intro ht
    rcases hnew t ht with ho | ⟨hge, -⟩
    · exact hji (h.inj j i t hj ho)
    · exact absurd (h.range j t hj).2.1 (by omega)
  constructor
  · intro j t hj
    by_cases hji : j = i
    · subst hji
      rw [Function.update_self] at hj
      have hfresh : used' t → used t := by
        intro hx
        rcases hused t hx with hx | ⟨-, hx⟩
        · exact hx
        · simp [hx] at hj
      rcases hnew t hj with ho | ⟨hge, hlt⟩
      · obtain ⟨h₁, h₂, h₃⟩ := h.range j t ho
        exact ⟨h₁, h₂.trans_le hhi, fun hx => h₃ (hfresh hx)⟩
      · exact ⟨hlo.trans hge, hlt, fun hx => absurd (hu t (hfresh hx)) (by omega)⟩
    · rw [Function.update_of_ne hji] at hj
      obtain ⟨h₁, h₂, h₃⟩ := h.range j t hj
      refine ⟨h₁, h₂.trans_le hhi, fun hx => ?_⟩
      rcases hused t hx with hx | ⟨hx, -⟩
      · exact h₃ hx
      · exact hji (h.inj j i t hj hx)
  · intro j k t hj hk
    by_cases hji : j = i <;> by_cases hki : k = i
    · rw [hji, hki]
    · subst hji
      rw [Function.update_self] at hj
      rw [Function.update_of_ne hki] at hk
      exact absurd hj (hother hki hk)
    · subst hki
      rw [Function.update_self] at hk
      rw [Function.update_of_ne hji] at hj
      exact absurd hk (hother hji hj)
    · rw [Function.update_of_ne hji] at hj
      rw [Function.update_of_ne hki] at hk
      exact h.inj j k t hj hk

end Tickets

end Libevl.Transition
