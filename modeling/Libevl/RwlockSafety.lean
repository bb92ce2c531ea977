import Libevl.RwlockInvariant
import Mathlib.Tactic.FinCases

/-!
# Exclusion and wake-up of the read-write lock

The phases give mutual exclusion and the assertions for runs with exact
exchanges. They give the writers' wake-up as long as no writer joins another
one behind readers. The try operation for writing is settled for every word.
-/
namespace Libevl.Rwlock
open Transition

variable {ι : Type*} [Fintype ι] [DecidableEq ι]

/-- While a thread holds the lock for write, no other thread holds it. -/
def Exclusive (s : State ι) : Prop :=
  ∀ i j, i ≠ j → 0 < (s.thread i).writes → (s.thread j).reads = 0 ∧ (s.thread j).writes = 0

/-- Nobody holds the lock, and no hand-over is under way. -/
def Quiet (s : State ι) : Prop :=
  ∀ i, (s.thread i).reads = 0 ∧ (s.thread i).writes = 0 ∧ (s.thread i).pc ≠ .postWr

/-- The lock is free, or a registered writer has its WR bit pending. -/
def WriterWoken (s : State ι) : Prop :=
  s.shared.lock.count = wrBias ∨ s.shared.wr = true ∧ 0 < queued s

theorem reach_inv {s : State ι} (h : Reach (Step Exact) (· = initial ι) s) :
    Inv (fun _ => True) s :=
  h.invariant (fun _ hs => hs ▸ initial_inv) fun _ _ _ hI hs =>
    step_inv (fun _ _ h => h) trivial (fun _ _ _ _ _ _ => trivial) hI hs

/-- In orderly runs at most one writer waits behind readers. -/
theorem reach_orderly {s : State ι} (h : Reach (Step Orderly) (· = initial ι) s) :
    Inv (· = 1) s := by
  refine h.invariant (fun _ hs => hs ▸ initial_inv) fun t l t' hI hs => ?_
  refine step_inv (fun _ _ h => h.1) rfl (fun hl ha hpc hq hr hc => ?_) hI hs
  exact absurd ⟨ha, hpc, hc, by omega⟩ hl.2

theorem Inv.exclusive {K : ℕ → Prop} {s : State ι} (h : Inv K s) : Exclusive s := by
  intro i j hij hi
  have hw : (s.thread i).writes ≤ writeHolds s := le_total _ _ i
  have hwj : (s.thread i).writes + (s.thread j).writes ≤ writeHolds s := add_le_total _ _ hij
  have hr : (s.thread j).reads ≤ readHolds s := le_total _ _ j
  rcases h.phase with ⟨-, -, h₃, -⟩ | ⟨h₁, h₂, -⟩ | ⟨h₁, -⟩ <;> omega

omit [DecidableEq ι] in
/-- Holds and registrations are counted by threads when no thread nests them. -/
theorem outstanding_le_card {s : State ι}
    (h : ∀ i, (s.thread i).reads + (s.thread i).writes + (s.thread i).queued ≤ 1) :
    outstanding s ≤ Fintype.card ι := by
  calc
    outstanding s = total (fun t => t.reads + t.writes + t.queued) s.thread := by
      simp only [outstanding, readHolds, writeHolds, queued, total, Finset.sum_add_distrib]
    _ ≤ Fintype.card ι := total_le_card h

/-- Mutual exclusion, and no failed assertion outside of `evl_trylock_write`. -/
theorem exclusive_of_exact {s : State ι} (h : Reach (Step Exact) (· = initial ι) s) :
    Exclusive s ∧ ∀ f, s.shared.failed = some f → f = .trylockWrite := by
  refine ⟨(reach_inv h).exclusive, fun f hf => ?_⟩
  rcases (reach_inv h).failed with h' | h' <;> simp_all

/-- An operation and the number of its further steps, all of them exact. -/
def does {n : ℕ} (i : Fin n) (f : Fn) (k : ℕ) : List (Fin n × Act) :=
  (i, .call f) :: List.replicate k (i, .go)

/-- A reader leaves to the writer which waits behind it, comes back and finds the writer inside. -/
def returningRun : List (Fin 2 × Act) :=
  does 0 .lockRead 2 ++ does 1 .lockWrite 2 ++ does 0 .unlockRead 3 ++ (1, .go) ::
    does 0 .lockRead 2

theorem exclusive_of_exact_returning : ∃ s : State (Fin 2),
    runs (guarded Exact) (initial (Fin 2)) returningRun = some s ∧ (s.thread 1).writes = 1 ∧
      (s.thread 0).pc = .waitRd ∧ ((s.thread 0).reads = 0 ∧ (s.thread 0).writes = 0) ∧
      ∀ f, s.shared.failed = some f → f = .trylockWrite := by
  obtain ⟨s, hs, hd⟩ := Option.map_eq_some_iff.mp (by decide :
    (runs (guarded Exact) (initial (Fin 2)) returningRun).map
        (fun s => ((s.thread 1).writes, (s.thread 0).pc)) = some (1, .waitRd))
  simp only [Prod.mk.injEq] at hd
  obtain ⟨hexcl, hfailed⟩ := exclusive_of_exact (reach_of_guarded hs)
  exact ⟨s, hs, hd.1, hd.2, hexcl 1 0 (by decide) (by omega), hfailed⟩

/-- The weak exchange of the first writer fails on the free word, then another
writer comes. -/
def spuriousRun : List (Fin 2 × Act) :=
  does 0 .lockWrite 1 ++ [(0, .spurious)] ++ does 1 .lockWrite 2

/-- A weak exchange that fails on the free word lets two writers in. -/
theorem not_exclusive_of_spurious : ¬ ∀ s : State (Fin 2),
    Reach (Step WaitsHold) (· = initial (Fin 2)) s →
      Exclusive s ∧ ∀ f, s.shared.failed = some f → f = .trylockWrite := by
  intro h
  obtain ⟨s, hs, hd⟩ := Option.map_eq_some_iff.mp (by decide :
    (runs (guarded WaitsHold) (initial (Fin 2)) spuriousRun).map
        (fun s => ((s.thread 0).writes, (s.thread 1).writes)) = some (1, 1))
  simp only [Prod.mk.injEq] at hd
  have he := (h s (reach_of_guarded hs)).1 0 1 (by decide) (by omega)
  omega

/-- A release with nobody else inside leaves the lock free or a writer woken. -/
theorem writer_woken_of_orderly {s : State ι} (h : Reach (Step Orderly) (· = initial ι) s)
    (hq : Quiet s) : WriterWoken s := by
  have hI := reach_orderly h
  have hr : readHolds s = 0 := by
    simp only [readHolds, total, Finset.sum_eq_zero_iff]
    exact fun i _ => (hq i).1
  have hw : writeHolds s = 0 := by
    simp only [writeHolds, total, Finset.sum_eq_zero_iff]
    exact fun i _ => (hq i).2.1
  have hp : posting s = 0 := by
    simp only [posting, total, Finset.sum_eq_zero_iff, Thread.posting]
    exact fun i _ => if_neg (hq i).2.2
  rcases hI.phase with ⟨h₁, -⟩ | ⟨-, h₂, h₃, -⟩ | ⟨-, -, -, -, h₅, -, h₇⟩
  · exact .inl (by rw [h₁, hr]; simp)
  · cases hwr : s.shared.wr <;> simp only [hwr, Bool.toNat_true, Bool.toNat_false] at h₂ h₃
    · omega
    · exact .inr ⟨hwr, by omega⟩
  · omega

/-- A writer arrives behind a reader, and the reader leaves. -/
def handoverRun : List (Fin 2 × Act) :=
  does 0 .lockRead 2 ++ does 1 .lockWrite 2 ++ does 0 .unlockRead 3

/-- A reader leaves to the one writer that waits behind it. -/
theorem writer_woken_of_orderly_handover : ∃ s : State (Fin 2),
    runs (guarded Orderly) (initial (Fin 2)) handoverRun = some s ∧ WriterWoken s := by
  obtain ⟨s, hs, hd⟩ := Option.map_eq_some_iff.mp (by decide :
    (runs (guarded Orderly) (initial (Fin 2)) handoverRun).map (fun s => (s.thread 0, s.thread 1)) =
      some (⟨.idle, .ok, 0, 0⟩, ⟨.waitWr, .ok, 0, 0⟩))
  simp only [Prod.mk.injEq] at hd
  refine ⟨s, hs, writer_woken_of_orderly (reach_of_guarded hs) ?_⟩
  intro i
  fin_cases i <;> simp [hd]

/-- Two writers arrive behind a reader, and the reader leaves. -/
def strandedRun : List (Fin 3 × Act) :=
  does 0 .lockRead 2 ++ does 1 .lockWrite 2 ++ does 2 .lockWrite 2 ++ does 0 .unlockRead 2

/-- Two writers queue behind a reader, and its release wakes up neither. -/
theorem not_writer_woken_behind_reader : ¬ ∀ s : State (Fin 3),
    Reach (Step Exact) (· = initial (Fin 3)) s → Quiet s → WriterWoken s := by
  intro h
  obtain ⟨s, hs, hd⟩ := Option.map_eq_some_iff.mp (by decide :
    (runs (guarded Exact) (initial (Fin 3)) strandedRun).map
        (fun s => (s.shared, s.thread 0, s.thread 1, s.thread 2)) =
      some (⟨⟨-1, false⟩, false, false, none⟩, ⟨.idle, .ok, 0, 0⟩, ⟨.waitWr, .ok, 0, 0⟩,
        ⟨.waitWr, .ok, 0, 0⟩))
  simp only [Prod.mk.injEq] at hd
  have hq : Quiet s := by
    intro i
    fin_cases i <;> simp [hd]
  have hw := h s (reach_of_guarded hs) hq
  simp [WriterWoken, hd.1, wrBias] at hw

/-- The lock word holds a 31-bit count, and a try operation for writing has
passed its tests on a free word only. -/
structure TryInv (s : State ι) : Prop where
  word : -2 ^ 30 ≤ s.shared.lock.count ∧ s.shared.lock.count < 2 ^ 30
  free : ∀ i prev, (s.thread i).pc = .cas .trylockWrite prev → prev.count = wrBias

theorem nextWord_range {w : Inner} (h : -2 ^ 30 ≤ w.count ∧ w.count < 2 ^ 30) (f : Fn) :
    -2 ^ 30 ≤ (nextWord f w).count ∧ (nextWord f w).count < 2 ^ 30 := by
  cases f <;> simp only [nextWord]
  case lockRead => split_ifs <;> [exact h; exact narrow31_range _]
  case lockWrite => split_ifs <;> exact narrow31_range _
  case unlockWrite => split_ifs <;> [exact narrow31_range _; decide]
  all_goals exact narrow31_range _

/-- After an exchange the word is left alone, and the thread has read no new one. -/
theorem onExchanged_frame {f : Fn} {prev : Inner} {sh : Shared} {t : Thread} :
    (onExchanged f prev sh t).1.lock = sh.lock ∧
      ∀ w, (onExchanged f prev sh t).2.pc = .cas .trylockWrite w → t.pc = .cas .trylockWrite w := by
  cases f <;> simp only [onExchanged] <;> (try split_ifs) <;> simp [Thread.returns]

/-- A step writes the computed word or none, and a try for writing remembers
the word only if its tests let it through. -/
theorem threadStep_word {sh : Shared} {t : Thread} {a : Act} {o : Shared × Thread}
    (ho : threadStep sh t a = some o) :
    (o.1.lock = sh.lock ∨ ∃ f, o.1.lock = nextWord f sh.lock) ∧
      ∀ w, o.2.pc = .cas .trylockWrite w → t.pc = .cas .trylockWrite w ∨
        w = sh.lock ∧ narrow31 (w.count - wrBias) = 0 := by
  cases a <;> simp only [threadStep] at ho
  case call => split_ifs at ho; cases ho; simp
  case go =>
    split at ho
    case h_1 f ht =>
      have hcase := onLoad_cases f sh t
      rw [Option.some.inj ho] at hcase
      cases hcase with
      | exchange _ hw => exact ⟨.inl rfl, fun w hc => by simp_all⟩
      | again => exact ⟨.inl rfl, fun w hc => by simp [Thread.returns] at hc⟩
      | abort => exact ⟨.inl rfl, fun w hc => by simp_all⟩
    case h_2 f prev ht =>
      split_ifs at ho with hl
      · cases ho
        obtain ⟨h₁, h₂⟩ := @onExchanged_frame f prev { sh with lock := nextWord f prev } t
        exact ⟨.inr ⟨f, by rw [h₁, hl]⟩, fun w hw => .inl (h₂ w hw)⟩
      all_goals cases ho; simp [Thread.returns]
    all_goals (try split_ifs at ho) <;> cases ho <;> simp [Thread.returns]
  case spurious =>
    split at ho <;> [split_ifs at ho; skip] <;> cases ho
    obtain ⟨h₁, h₂⟩ := @onExchanged_frame _ _ sh t
    exact ⟨.inl h₁, fun w hw => .inl (h₂ w hw)⟩
  case wake => split_ifs at ho; cases ho; simp
  case eintr => split at ho <;> cases ho <;> simp_all
  case fail => split_ifs at ho; cases ho; simp [Thread.returns]

theorem step_tryInv {s s' : State ι} {l : ι × Act} (h : TryInv s) (hs : step s l = some s') :
    TryInv s' := by
  obtain ⟨i, a⟩ := l
  simp only [step] at hs
  split_ifs at hs with hfail hbc
  · cases hs
    constructor
    · simp only [bcast]
      split_ifs <;> exact h.word
    · intro j prev hj
      refine h.free j prev ?_
      by_cases hji : j = i
      · subst hji
        simp only [bcast] at hj
        split_ifs at hj <;> simp [Thread.returns] at hj
      · simp only [bcast] at hj
        split_ifs at hj
        · dsimp only at hj
          split_ifs at hj
          simpa [hji] using hj
        · simpa [hji] using hj
  · obtain ⟨o, ho, rfl⟩ := Option.map_eq_some_iff.mp hs
    obtain ⟨hl, hc⟩ := threadStep_word ho
    constructor
    · rcases hl with hl | ⟨f, hl⟩
      · rw [hl]
        exact h.word
      · rw [hl]
        exact nextWord_range h.word f
    · intro j prev hj
      by_cases hji : j = i
      · subst hji
        simp only [Function.update_self] at hj
        rcases hc prev hj with hold | ⟨rfl, hz⟩
        · exact h.free _ _ hold
        · have hw := h.word
          have hB := wrBias_eq
          have h0 := narrow31_eq_zero (by omega) (by omega) hz
          omega
      · exact h.free j prev (by simpa [hji] using hj)

/-- What an atomic read by `evl_trylock_write` does when the try is harmless: it
goes on to the exchange on a free word, and otherwise returns `-EAGAIN`. The
shared state is left alone, so no assertion has failed. -/
def TryHarmless (s : State ι) (i : ι) : Prop :=
  ∀ s', step s (i, .go) = some s' → s'.shared = s.shared ∧
    (s'.thread i).pc = (if s.shared.lock.count = wrBias then .cas .trylockWrite s.shared.lock
      else .idle) ∧
    (s.shared.lock.count ≠ wrBias → (s'.thread i).ret = .again)

/-- The try for writing is harmless exactly when the count is at least minus
one, and it only ever exchanges a free word. -/
theorem tryHarmless_iff {s : State ι}
    (h : Reach (fun s l s' => step s l = some s') (· = initial ι) s) (i : ι)
    (hf : s.shared.failed = none) :
    ((s.thread i).pc = .load .trylockWrite → (TryHarmless s i ↔ -1 ≤ s.shared.lock.count)) ∧
      ∀ prev, (s.thread i).pc = .cas .trylockWrite prev → prev.count = wrBias := by
  have hI : TryInv s := by
    refine h.invariant (fun t ht => ?_) fun _ _ _ hI hs => step_tryInv hI hs
    subst ht
    exact ⟨by simp [initial, wrBias], fun j prev hj => by simp [initial] at hj⟩
  refine ⟨fun hpc => ?_, hI.free i⟩
  obtain ⟨hlo, hhi⟩ := hI.word
  have hB := wrBias_eq
  have hn : narrow31 (s.shared.lock.count - wrBias) = if -1 ≤ s.shared.lock.count then
      s.shared.lock.count - wrBias else s.shared.lock.count - wrBias + 2 ^ 31 := by
    rw [narrow31, Int.bmod_def]
    split_ifs <;> omega
  have hcase := onLoad_cases .trylockWrite s.shared (s.thread i)
  have hstep : step s (i, .go) = some ⟨(onLoad .trylockWrite s.shared (s.thread i)).1,
      Function.update s.thread i (onLoad .trylockWrite s.shared (s.thread i)).2⟩ := by
    simp [step, threadStep, hf, hpc]
  simp only [TryHarmless, hstep, Option.some.injEq, forall_eq', Function.update_self]
  generalize onLoad .trylockWrite s.shared (s.thread i) = o at hcase
  cases hcase with
  | exchange _ hw =>
    have hz := hw rfl
    have hc : s.shared.lock.count = wrBias := by
      rw [hn] at hz
      split_ifs at hz <;> omega
    simp [hc, hB]
  | again h =>
    obtain ⟨hneg, hne⟩ : -1 ≤ s.shared.lock.count ∧ s.shared.lock.count ≠ wrBias := by
      rcases h with h | ⟨-, h⟩
      · cases h
      · rw [hn] at h
        split_ifs at h <;> omega
    simp [hneg, hne, Thread.returns]
  | abort h =>
    have hc : ¬ -1 ≤ s.shared.lock.count := by
      rcases h with ⟨h, -⟩ | ⟨-, h⟩
      · exact absurd rfl h
      · rw [hn] at h
        split_ifs at h <;> omega
    simp only [hc, iff_false]
    rintro ⟨hsh, -⟩
    have hfail := congrArg Shared.failed hsh
    simp [hf] at hfail

/-- A try for writing on a lock that a reader holds and a writer waits for. -/
theorem tryHarmless_iff_reader : ∃ s : State (Fin 3),
    runs step (initial (Fin 3)) (does 0 .lockRead 2 ++ does 1 .lockWrite 2 ++
      does 2 .trylockWrite 0) = some s ∧ s.shared.lock.count = -1 ∧ TryHarmless s 2 := by
  obtain ⟨s, hs, hd⟩ := Option.map_eq_some_iff.mp (by decide :
    (runs step (initial (Fin 3)) (does 0 .lockRead 2 ++ does 1 .lockWrite 2 ++
        does 2 .trylockWrite 0)).map
      (fun s => (s.shared.failed, s.shared.lock.count, (s.thread 2).pc)) =
        some (none, -1, .load .trylockWrite))
  simp only [Prod.mk.injEq] at hd
  have hr : Reach (fun s l s' => step s l = some s') (· = initial (Fin 3)) s :=
    reach_of_runs (fun _ _ _ _ h => h) (.init rfl) hs
  refine ⟨s, hs, hd.2.1, ((tryHarmless_iff hr 2 hd.1).1 hd.2.2).mpr ?_⟩
  rw [hd.2.1]

/-- One writer holds the lock, two more wait for it, and a fourth thread tries. -/
def crowdedRun : List (Fin 4 × Act) :=
  does 0 .lockWrite 2 ++ does 1 .lockWrite 2 ++ does 2 .lockWrite 2 ++ does 3 .trylockWrite 0

/-- With two writers waiting the try trips its own assertion. -/
theorem not_tryHarmless_crowded : ¬ ∀ (s : State (Fin 4)) (i : Fin 4),
    Reach (Step Exact) (· = initial (Fin 4)) s → s.shared.failed = none →
      (s.thread i).pc = .load .trylockWrite → TryHarmless s i := by
  intro h
  obtain ⟨s, hs, hd⟩ := Option.map_eq_some_iff.mp (by decide :
    (runs (guarded Exact) (initial (Fin 4)) crowdedRun).map
        (fun s => (s.shared.failed, (s.thread 3).pc,
          (step s (3, .go)).map fun s' => s'.shared.failed)) =
      some (none, .load .trylockWrite, some (some .trylockWrite)))
  simp only [Prod.mk.injEq] at hd
  obtain ⟨hf, hpc, hstep⟩ := hd
  obtain ⟨s', hs', hf'⟩ := Option.map_eq_some_iff.mp hstep
  have hsh := (h s 3 (reach_of_guarded hs) hf hpc s' hs').1
  rw [hsh, hf] at hf'
  cases hf'

end Libevl.Rwlock
