import Libevl.RwlockSafety

/-!
# A lock for writing that fails

A writer that finds the lock busy registers itself in the count, then waits for
the WR bit. When the wait fails, `evl_lock_write` hands the error back and
leaves the count alone. The invariant is the one of the exact runs, with the
registrations left behind added to the writers that still wait.
-/
namespace Libevl.Rwlock
open Transition

variable {ι : Type*} [Fintype ι] [DecidableEq ι]

/-- No weak compare-exchange fails on a matching word; waits may fail. -/
def Matching (_ : State ι) (l : ι × Act) : Prop := l.2 ≠ .spurious

instance (s : State ι) (l : ι × Act) : Decidable (Matching s l) :=
  inferInstanceAs (Decidable (_ ≠ _))

/-- The count that `r` read holds, `w` write holds and `q` waiting writers
account for, `o` of the latter being handed the lock over. -/
def due (r w q o : ℕ) : ℤ :=
  if w = 0 ∧ q = 0 then wrBias - r
  else if w + o = 0 then wrBias - r - wrBias - (q - 1)
  else o - q

/-- The hand-overs about to be posted or not consumed yet. -/
def handed (s : State ι) : ℕ := posting s + s.shared.wr.toNat

/-- The holders and the waiting writers alone account for the count. -/
def Accounted (s : State ι) : Prop :=
  s.shared.lock.count = due (readHolds s) (writeHolds s) (queued s) (handed s)

/-- As long as every wait succeeds, the count is accounted for. -/
theorem accounted_of_exact {s : State ι} (h : Reach (Step Exact) (· = initial ι) s) :
    Accounted s := by
  have hI := reach_inv h
  unfold Accounted due handed
  rcases hI.phase with ⟨h₁, -, h₃, h₄, -⟩ | ⟨h₁, h₂, h₃, h₄⟩ | ⟨h₁, h₂, h₃, h₄, -, h₆, -⟩
  · rw [if_pos ⟨h₃, h₄⟩, h₁]
  · rw [if_neg (by omega), if_neg (by omega), h₄]
  · rw [if_neg (by omega), if_pos (by simp [h₁, h₂, h₃]), h₆]
    omega

/-- The count also accounts for `f` registrations that nobody waits for. -/
structure Owes (f : ℕ) (s : State ι) : Prop where
  phase : Phase (fun _ => True) s.shared (readHolds s) (writeHolds s) (queued s + f) (posting s)
  thread : ∀ i, (s.thread i).Ok

theorem owes_iff_with (f : ℕ) (s : State ι) (i : ι) :
    Phase (fun _ => True) s.shared (readHolds s) (writeHolds s) (queued s + f) (posting s) ↔
      Phase.With (fun _ => True) s.shared (s.thread i) (others Thread.reads s.thread i)
        (others Thread.writes s.thread i) (others Thread.queued s.thread i + f)
        (others Thread.posting s.thread i) := by
  have hq : queued s + f = others Thread.queued s.thread i + f + (s.thread i).queued := by
    rw [queued, total_eq _ _ i]
    omega
  simp only [Phase.With, hq, readHolds, writeHolds, posting, total_eq _ _ i]

omit [DecidableEq ι] in
/-- One registration that nobody waits for is enough to break the account. -/
theorem Owes.not_accounted {f : ℕ} {s : State ι} (h : Owes f s) (hf : 0 < f) : ¬ Accounted s := by
  have hB := wrBias_eq
  intro hc
  unfold Accounted due handed at hc
  rcases h.phase with ⟨-, -, -, h₄, -⟩ | ⟨h₁, h₂, h₃, h₄⟩ | ⟨h₁, h₂, h₃, h₄, -, h₆, -⟩
  · omega
  · split_ifs at hc <;> omega
  · split_ifs at hc <;> omega

omit [DecidableEq ι] in
/-- It also keeps the lock from reading free. -/
theorem Owes.count_le {f : ℕ} {s : State ι} (h : Owes f s) (hf : 0 < f) :
    s.shared.lock.count ≤ 0 := by
  rcases h.phase with ⟨-, -, -, h₄, -⟩ | ⟨-, -, h₃, h₄⟩ | ⟨-, -, -, -, h₅, h₆, -⟩ <;> omega

section Thread

variable {sh : Shared} {t : Thread} {r w q p f : ℕ}

/-- A wait that fails turns a waiting writer into a registration left behind. -/
theorem fail_owes (h : Phase.With (fun _ => True) sh t r w (q + f) p) {o : Shared × Thread}
    (ho : threadStep sh t .fail = some o) :
    ∃ f', Phase.With (fun _ => True) o.1 o.2 r w (q + f') p ∧ o.2.Ok ∧ f ≤ f' ∧
      (t.pc = .waitWr → f < f') := by
  simp only [threadStep] at ho
  split_ifs at ho with ht
  cases ho
  have hkeep (hw : t.pc = .waitRd ∨ t.pc = .sleepRd) :
      Phase.With (fun _ => True) sh (t.returns .error) r w (q + f) p := by
    rcases hw with hw | hw <;>
      simpa [Phase.With, Thread.queued, Thread.posting, Thread.returns, hw] using h
  rcases ht with ht | ht | ht
  · exact ⟨f, hkeep (.inl ht), trivial, le_rfl, by simp [ht]⟩
  · exact ⟨f, hkeep (.inr ht), trivial, le_rfl, by simp [ht]⟩
  · have hq : t.queued = 1 := by simp [Thread.queued, ht]
    have hp : t.posting = 0 := by simp [Thread.posting, ht]
    simp only [Phase.With, hq, hp] at h
    exact ⟨f + 1, h, trivial, by omega, fun _ => by omega⟩

/-- Any other exact step leaves the registrations left behind alone, or aborts. -/
theorem threadStep_owes {a : Act} (hs : a ≠ .spurious) (hf : a ≠ .fail) (hok : t.Ok)
    (h : Phase.With (fun _ => True) sh t r w (q + f) p) (hc : sh.lock.Ranged)
    {o : Shared × Thread} (ho : threadStep sh t a = some o) (hn : o.1.failed = none)
    (hb : ((r + o.2.reads : ℕ) : ℤ) < wrBias) :
    Phase.With (fun _ => True) o.1 o.2 r w (q + f) p ∧ o.2.Ok := by
  have hle (ha : a = .go) (hpc : t.pc = .cas .lockWrite sh.lock) :
      (nextWord .lockWrite sh.lock).count ≤ 0 := by
    by_contra hpos
    subst ha
    simp only [threadStep, hpc, if_pos, onExchanged, if_pos (not_le.mp hpos),
      Option.some.injEq] at ho
    simp [← ho] at hn
  obtain ⟨h₁, -, h₃⟩ := threadStep_phase hs hf hok h hc hle ho hb trivial
    fun _ _ _ _ _ => trivial
  exact ⟨h₁, h₃⟩

end Thread

theorem bcast_owes {f : ℕ} {s : State ι} {i : ι} (h : Owes f s)
    (hpc : (s.thread i).pc = .bcastRd) : Owes f (bcast s i) := by
  obtain ⟨hr, hwr, hq, hp⟩ := bcast_totals hpc
  obtain ⟨hl, hw, -⟩ := bcast_shared s i
  refine ⟨?_, fun j => (bcast_weight hpc j).2.2.2.2 (h.thread j)⟩
  rw [hr, hwr, hq, hp]
  exact h.phase.congr hl hw

/-- A step never settles what is owed, and a failed lock for writing adds to it. -/
theorem Owes.step {f : ℕ} {s s' : State ι} {l : ι × Act} (h : Owes f s) (hc : s.shared.lock.Ranged)
    (hs : step s l = some s') (hl : Matching s l) (hn : s'.shared.failed = none)
    (hb : l.2 ≠ .fail → (readHolds s' : ℤ) < wrBias) :
    ∃ f', Owes f' s' ∧ f ≤ f' ∧ (l.2 = .fail → (s.thread l.1).pc = .waitWr → f < f') := by
  obtain ⟨i, a⟩ := l
  simp only [Rwlock.step] at hs
  split_ifs at hs with hfail hbc
  · obtain ⟨hpc, rfl⟩ := hbc
    cases hs
    exact ⟨f, bcast_owes h hpc, le_rfl, by simp⟩
  · obtain ⟨o, ho, rfl⟩ := Option.map_eq_some_iff.mp hs
    have hph := (owes_iff_with f s i).mp h.phase
    have hupd {f' : ℕ} (h₁ : Phase.With (fun _ => True) o.1 o.2 (others Thread.reads s.thread i)
        (others Thread.writes s.thread i) (others Thread.queued s.thread i + f')
        (others Thread.posting s.thread i)) (h₂ : o.2.Ok) :
        Owes f' ⟨o.1, Function.update s.thread i o.2⟩ := by
      refine ⟨?_, fun j => ?_⟩
      · rw [owes_iff_with f' _ i]
        simpa only [others_update, Function.update_self] using h₁
      · by_cases hj : j = i
        · subst hj
          simpa only [Function.update_self] using h₂
        · simpa only [Function.update_of_ne hj] using h.thread j
    by_cases ha : a = .fail
    · subst ha
      obtain ⟨f', h₁, h₂, hle, hlt⟩ := fail_owes hph ho
      exact ⟨f', hupd h₁ h₂, hle, fun _ => hlt⟩
    · have hb' := hb ha
      rw [readHolds, total_update] at hb'
      obtain ⟨h₁, h₂⟩ := threadStep_owes hl ha (h.thread i) hph hc ho hn hb'
      exact ⟨f, hupd h₁ h₂, le_rfl, fun hfl => absurd hfl ha⟩

/-- What holds from a state on in which `n` registrations have been left behind. -/
structure OwesAtLeast (n : ℕ) (s : State ι) : Prop where
  word : TryInv s
  owes : s.shared.failed = none → ∃ f, n ≤ f ∧ Owes f s

theorem OwesAtLeast.step {n : ℕ} {s s' : State ι} {l : ι × Act} (h : OwesAtLeast n s)
    (hs : step s l = some s') (hl : Matching s l)
    (hb : l.2 ≠ .fail → (readHolds s' : ℤ) < wrBias) : OwesAtLeast n s' := by
  refine ⟨step_tryInv h.word hs, fun hn => ?_⟩
  have hfail : s.shared.failed = none := by
    by_contra hne
    simp [Rwlock.step, Option.isSome_iff_ne_none.mpr hne] at hs
  obtain ⟨f, hnf, ho⟩ := h.owes hfail
  obtain ⟨f', ho', hle, -⟩ := ho.step h.word.word hs hl hn hb
  exact ⟨f', hnf.trans hle, ho'⟩

theorem reach_owes {n : ℕ} {s s' : State ι} (hs : OwesAtLeast n s)
    (h : Reach (Step Matching) (· = s) s') : OwesAtLeast n s' := by
  refine h.invariant (fun t ht => ht ▸ hs) fun t l t' hI hstep => ?_
  obtain ⟨hl, hst, hb⟩ := hstep
  refine hI.step hst hl fun _ => ?_
  simp only [outstanding] at hb
  omega

omit [DecidableEq ι] in
theorem initial_owes : OwesAtLeast 0 (initial ι) where
  word := ⟨by simp [initial, wrBias], fun j prev hj => by simp [initial] at hj⟩
  owes _ := by
    have h : Inv (fun _ => True) (initial ι) := initial_inv
    exact ⟨0, le_rfl, h.phase, h.thread⟩

/-- After a failed lock for writing the count is not the one which the others
account for, and the lock never reads free again. -/
theorem never_free_of_failed {s s' : State ι} {i : ι}
    (h : Reach (Step Matching) (· = initial ι) s) (hw : (s.thread i).pc = .waitWr)
    (hs : step s (i, .fail) = some s') :
    ¬ Accounted s' ∧ ∀ t, Reach (Step Matching) (· = s') t → t.shared.failed = none →
      t.shared.lock.count ≤ 0 := by
  have h₀ := reach_owes initial_owes h
  have hfail : s.shared.failed = none := by
    by_contra hne
    simp [step, Option.isSome_iff_ne_none.mpr hne] at hs
  have hn : s'.shared.failed = none := by
    simp only [step, hfail, threadStep, hw] at hs
    cases hs
    exact hfail
  obtain ⟨f, -, ho⟩ := h₀.owes hfail
  obtain ⟨f', ho', -, hlt⟩ := ho.step h₀.word.word hs (by simp [Matching]) hn (by simp)
  have hpos : 0 < f' := (Nat.zero_le f).trans_lt (hlt rfl hw)
  refine ⟨ho'.not_accounted hpos, fun t ht htn => ?_⟩
  obtain ⟨g, hg, hot⟩ := (reach_owes (n := 1) ⟨step_tryInv h₀.word hs, fun _ => ⟨f', hpos, ho'⟩⟩
    ht).owes htn
  exact hot.count_le (by omega)

/-- A writer waits behind another one. -/
def contendedRun : List (Fin 2 × Act) := does 0 .lockWrite 2 ++ does 1 .lockWrite 2

/-- The wait of the second writer fails. -/
theorem never_free_of_failed_contended : ∃ s s' : State (Fin 2),
    runs (guarded Matching) (initial (Fin 2)) contendedRun = some s ∧
      step s (1, .fail) = some s' ∧
      (¬ Accounted s' ∧ ∀ t, Reach (Step Matching) (· = s') t → t.shared.failed = none →
        t.shared.lock.count ≤ 0) := by
  obtain ⟨s, hs, hd⟩ := Option.map_eq_some_iff.mp (by decide :
    (runs (guarded Matching) (initial (Fin 2)) contendedRun).map
        (fun s => ((s.thread 1).pc, (step s (1, .fail)).isSome)) = some (.waitWr, true))
  simp only [Prod.mk.injEq] at hd
  obtain ⟨hpc, hsome⟩ := hd
  obtain ⟨s', hs'⟩ := Option.isSome_iff_exists.mp hsome
  exact ⟨s, s', hs, hs', never_free_of_failed (reach_of_guarded hs) hpc hs'⟩

/-- After the failed wait the count still has the second writer in it. -/
theorem not_accounted_contended : ¬ ∀ (s s' : State (Fin 2)) (i : Fin 2),
    Reach (Step Matching) (· = initial (Fin 2)) s → (s.thread i).pc = .waitWr →
      step s (i, .fail) = some s' → Accounted s' := by
  intro h
  obtain ⟨s, hs, hd⟩ := Option.map_eq_some_iff.mp (by decide :
    (runs (guarded Matching) (initial (Fin 2)) contendedRun).map
        (fun s => ((s.thread 1).pc, (step s (1, .fail)).map fun s' => (s'.shared.lock.count,
          due (readHolds s') (writeHolds s') (queued s') (handed s')))) =
      some (.waitWr, some (-1, 0)))
  simp only [Prod.mk.injEq] at hd
  obtain ⟨hpc, hstep⟩ := hd
  obtain ⟨s', hs', he⟩ := Option.map_eq_some_iff.mp hstep
  simp only [Prod.mk.injEq] at he
  have ha := h s s' 1 (reach_of_guarded hs) hpc hs'
  rw [Accounted, he.1, he.2] at ha
  omega

end Libevl.Rwlock
