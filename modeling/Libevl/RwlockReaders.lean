import Libevl.RwlockSafety

/-!
# Wake-up of the readers

A reader that finds a writer sets the pending bit, and only later does it ask
for the RD bit. The releasing writer clears the pending bit and broadcasts once.
While either is outstanding nothing can be lost. Once both are gone, the RD bit
has to cover every reader which has not begun its wait.
-/
namespace Libevl.Rwlock
open Transition

variable {ι : Type*} [Fintype ι] [DecidableEq ι]

/-- The lock is free, only flag waits are in progress, no RD bit is set, and a
reader sleeps. -/
structure Stranded (s : State ι) : Prop where
  free : s.shared.lock = ⟨wrBias, false⟩
  rest : ∀ i, (s.thread i).pc = .idle ∨ (s.thread i).pc = .waitRd ∨ (s.thread i).pc = .sleepRd ∨
    (s.thread i).pc = .waitWr
  unset : s.shared.rd = false
  blocked : ∃ i, (s.thread i).pc = .sleepRd

def Thread.unstarted (t : Thread) : ℕ := if t.pc = .waitRd then 1 else 0

/-- The readers about to ask for the RD bit. -/
def unstarted (s : State ι) : ℕ := total Thread.unstarted s.thread

/-- A broadcast is still to come. -/
def Pending (s : State ι) : Prop :=
  s.shared.lock.rdpend = true ∨ ∃ i, (s.thread i).pc = .bcastRd

/-- The last broadcast finds at most one reader that has not begun its wait, and
none if some reader sleeps. -/
def CatchesAll (s : State ι) (l : ι × Act) : Prop :=
  l.2 = .go → (s.thread l.1).pc = .bcastRd → s.shared.lock.rdpend = false →
    (∀ j, j ≠ l.1 → (s.thread j).pc ≠ .bcastRd) →
    unstarted s ≤ 1 ∧ ((∃ j, (s.thread j).pc = .sleepRd) → unstarted s = 0)

/-- A reader does not take a failed announcement for a success. -/
def Announces (s : State ι) (l : ι × Act) : Prop :=
  l.2 = .spurious → (s.thread l.1).pc = .cas .lockRead s.shared.lock →
    s.shared.lock.count ≤ 0 → Pending s

/-- No reader is left behind by a broadcast or by an exchange. -/
def Attended (s : State ι) (l : ι × Act) : Prop := CatchesAll s l ∧ Announces s l

instance (s : State ι) : Decidable (Pending s) :=
  inferInstanceAs (Decidable (_ ∨ _))

instance (s : State ι) (l : ι × Act) : Decidable (CatchesAll s l) :=
  inferInstanceAs (Decidable (_ → _))

instance (s : State ι) (l : ι × Act) : Decidable (Announces s l) :=
  inferInstanceAs (Decidable (_ → _))

instance (s : State ι) (l : ι × Act) : Decidable (Attended s l) :=
  inferInstanceAs (Decidable (_ ∧ _))

/-- An operation for reading that found the lock open found the bit clear. -/
def Thread.Clear (t : Thread) : Prop :=
  match t.pc with
  | .cas .lockRead prev => 0 < prev.count → prev.rdpend = false
  | .cas .trylockRead prev => prev.rdpend = false
  | _ => True

/-- Either a broadcast is still to come, or nobody sleeps and the RD bit covers
the readers about to ask for it. -/
structure ReadInv (s : State ι) : Prop where
  clear : ∀ i, (s.thread i).Clear
  covered : Pending s ∨ (∀ i, (s.thread i).pc ≠ .sleepRd) ∧ unstarted s ≤ s.shared.rd.toNat

/-- What a step of one thread means for the readers. -/
inductive Heeds (sh : Shared) (t : Thread) (a : Act) : Shared × Thread → Prop
  /-- A broadcast is to come. -/
  | pending {o : Shared × Thread} : o.1.lock.rdpend = true ∨ o.2.pc = .bcastRd → Heeds sh t a o
  /-- The bits stay, and the thread does not enter a wait. -/
  | keeps {o : Shared × Thread} : o.1.lock.rdpend = sh.lock.rdpend → o.1.rd = sh.rd →
      (o.2.pc = .waitRd → t.pc = .waitRd ∨ t.pc = .sleepRd) → o.2.pc ≠ .sleepRd → Heeds sh t a o
  /-- A reader consumes the RD bit. -/
  | consumes : t.pc = .waitRd → sh.rd = true →
      Heeds sh t a ({ sh with rd := false }, { t with pc := .load .lockRead })
  /-- A reader finds no RD bit. -/
  | sleeps : t.pc = .waitRd → sh.rd = false → Heeds sh t a (sh, { t with pc := .sleepRd })
  /-- A reader's exchange has failed unnoticed. -/
  | misses : a = .spurious → t.pc = .cas .lockRead sh.lock → sh.lock.count ≤ 0 →
      Heeds sh t a (sh, { t with pc := .waitRd })

theorem onLoad_clear (f : Fn) (sh : Shared) {t : Thread} (h : t.Clear) : (onLoad f sh t).2.Clear := by
  cases f <;> simp only [onLoad]
  case lockRead =>
    split_ifs with hc hr
    · simp only [Thread.Clear]
      intro hpos
      omega
    · exact h
    · simpa [Thread.Clear] using fun _ => hr
  case trylockRead =>
    split_ifs with hc hr
    · trivial
    · exact h
    · simpa [Thread.Clear] using hr
  case trylockWrite =>
    split_ifs
    · exact h
    · trivial
    · trivial
  case unlockWrite =>
    split_ifs
    · trivial
    · trivial
    · exact h
  all_goals trivial

/-- An atomic read leaves the bits alone, and starts no wait. -/
theorem onLoad_heeds {f : Fn} {sh : Shared} {t : Thread} {a : Act} (ht : t.pc = .load f) :
    Heeds sh t a (onLoad f sh t) := by
  have hcase := onLoad_cases f sh t
  generalize onLoad f sh t = o at hcase
  cases hcase with
  | exchange => exact .keeps rfl rfl (by simp) (by simp)
  | again => exact .keeps rfl rfl (by simp [Thread.returns]) (by simp [Thread.returns])
  | abort => exact .keeps rfl rfl (by simp [ht]) (by simp [ht])

/-- What the code may do after its exchange. -/
inductive Exchanged (f : Fn) (prev : Inner) (sh : Shared) (t : Thread) : Shared × Thread → Prop
  | leaves {o : Shared × Thread} : o.1.lock = sh.lock → o.1.rd = sh.rd →
      (o.2.pc = .idle ∨ o.2.pc = .postWr ∨ o.2.pc = .waitWr ∨ o.2.pc = t.pc) →
      (f = .lockRead → 0 < prev.count) →
      (f = .unlockWrite → prev.count < 0 ∨ prev.rdpend = false) → Exchanged f prev sh t o
  | waits : f = .lockRead → prev.count ≤ 0 → Exchanged f prev sh t (sh, { t with pc := .waitRd })
  | broadcasts : f = .unlockWrite → prev.rdpend = true →
      Exchanged f prev sh t (sh, { t with pc := .bcastRd, writes := t.writes - 1 })

theorem onExchanged_cases (f : Fn) (prev : Inner) (sh : Shared) (t : Thread) :
    Exchanged f prev sh t (onExchanged f prev sh t) := by
  cases f <;> simp only [onExchanged]
  case lockRead =>
    split_ifs with hc
    · exact .leaves rfl rfl (.inl rfl) (fun _ => hc) (by simp)
    · exact .waits rfl (not_lt.mp hc)
  case trylockRead => exact .leaves rfl rfl (.inl rfl) (by simp) (by simp)
  case unlockRead =>
    split_ifs
    · exact .leaves rfl rfl (.inr (.inl rfl)) (by simp) (by simp)
    · exact .leaves rfl rfl (.inl rfl) (by simp) (by simp)
  case lockWrite =>
    split_ifs
    · exact .leaves rfl rfl (.inr (.inr (.inr rfl))) (by simp) (by simp)
    · exact .leaves rfl rfl (.inr (.inr (.inl rfl))) (by simp) (by simp)
    · exact .leaves rfl rfl (.inl rfl) (by simp) (by simp)
  case trylockWrite => exact .leaves rfl rfl (.inl rfl) (by simp) (by simp)
  case unlockWrite =>
    split_ifs with hc hr
    · exact .leaves rfl rfl (.inr (.inl rfl)) (by simp) (fun _ => .inl hc)
    · exact .broadcasts rfl hr
    · exact .leaves rfl rfl (.inl rfl) (by simp) (fun _ => .inr (by simpa using hr))

section Thread

variable {sh : Shared} {t : Thread} {a : Act} {f : Fn}

theorem Exchanged.clear {prev : Inner} {o : Shared × Thread} (h : Exchanged f prev sh t o)
    (hc : t.Clear) : o.2.Clear := by
  cases h with
  | leaves _ _ hpc =>
    rcases hpc with hpc | hpc | hpc | hpc
    · simp [Thread.Clear, hpc]
    · simp [Thread.Clear, hpc]
    · simp [Thread.Clear, hpc]
    · simpa only [Thread.Clear, hpc] using hc
  | waits => trivial
  | broadcasts => trivial

/-- Without an announcement or a broadcast the pending bit stays. -/
theorem nextWord_rdpend {prev : Inner} (ht : t.pc = .cas f prev) (hc : t.Clear)
    (hr : f = .lockRead → 0 < prev.count)
    (hw : f = .unlockWrite → prev.count < 0 ∨ prev.rdpend = false) :
    (nextWord f prev).rdpend = prev.rdpend := by
  cases f <;> simp only [Thread.Clear, ht] at hc <;> simp only [nextWord]
  case lockRead =>
    rw [if_neg (not_le.mpr (hr rfl))]
    exact (hc (hr rfl)).symm
  case trylockRead => exact hc.symm
  case lockWrite => split_ifs <;> rfl
  case unlockWrite =>
    split_ifs with hlt
    · rfl
    · exact ((hw rfl).resolve_left hlt).symm

theorem exchange_heeds (ht : t.pc = .cas f sh.lock) (hc : t.Clear) :
    Heeds sh t a (onExchanged f sh.lock { sh with lock := nextWord f sh.lock } t) := by
  have hcase := onExchanged_cases f sh.lock { sh with lock := nextWord f sh.lock } t
  generalize onExchanged f sh.lock { sh with lock := nextWord f sh.lock } t = o at hcase
  cases hcase with
  | leaves hl hrd hpc hr hw =>
    refine .keeps ?_ hrd ?_ ?_
    · rw [hl]
      exact nextWord_rdpend ht hc hr hw
    · rcases hpc with hpc | hpc | hpc | hpc <;> simp [hpc, ht]
    · rcases hpc with hpc | hpc | hpc | hpc <;> simp [hpc, ht]
  | waits hf hle =>
    subst hf
    exact .pending (.inl (by simp only [nextWord, if_pos hle]))
  | broadcasts => exact .pending (.inr rfl)

theorem spurious_heeds (ht : t.pc = .cas f sh.lock) :
    Heeds sh t .spurious (onExchanged f sh.lock sh t) := by
  have hcase := onExchanged_cases f sh.lock sh t
  generalize onExchanged f sh.lock sh t = o at hcase
  cases hcase with
  | leaves hl hrd hpc =>
    refine .keeps (by rw [hl]) hrd ?_ ?_
    · rcases hpc with hpc | hpc | hpc | hpc <;> simp [hpc, ht]
    · rcases hpc with hpc | hpc | hpc | hpc <;> simp [hpc, ht]
  | waits hf hle =>
    subst hf
    exact .misses rfl ht hle
  | broadcasts => exact .pending (.inr rfl)

/-- One step of one thread, as the readers see it. -/
theorem threadStep_heeds (hc : t.Clear) {o : Shared × Thread} (ho : threadStep sh t a = some o) :
    Heeds sh t a o ∧ o.2.Clear ∧ t.pc ≠ .bcastRd := by
  cases a <;> simp only [threadStep] at ho
  case call f =>
    split_ifs at ho with h
    cases ho
    refine ⟨.keeps rfl rfl (by simp) (by simp), trivial, by simp [h.1]⟩
  case go =>
    split at ho
    case h_1 f ht =>
      cases ho
      exact ⟨onLoad_heeds ht, onLoad_clear f sh hc, by simp [ht]⟩
    case h_2 f prev ht =>
      split_ifs at ho with hl
      · subst hl
        cases ho
        exact ⟨exchange_heeds ht hc, (onExchanged_cases _ _ _ _).clear hc, by simp [ht]⟩
      · cases ho
        exact ⟨.keeps rfl rfl (by simp) (by simp), trivial, by simp [ht]⟩
      · cases ho
        exact ⟨.keeps rfl rfl (by simp [Thread.returns]) (by simp [Thread.returns]), trivial,
          by simp [ht]⟩
    case h_3 ht =>
      split_ifs at ho with hrd
      · cases ho
        exact ⟨.consumes ht hrd, trivial, by simp [ht]⟩
      · cases ho
        exact ⟨.sleeps ht (by simpa using hrd), trivial, by simp [ht]⟩
    case h_4 ht =>
      split_ifs at ho
      cases ho
      exact ⟨.keeps rfl rfl (by simp [Thread.returns]) (by simp [Thread.returns]), trivial,
        by simp [ht]⟩
    case h_5 ht =>
      cases ho
      exact ⟨.keeps rfl rfl (by simp [Thread.returns]) (by simp [Thread.returns]), trivial,
        by simp [ht]⟩
    case h_6 => cases ho
  case spurious =>
    split at ho
    case h_1 f prev ht =>
      split_ifs at ho with h
      obtain ⟨-, rfl⟩ := h
      cases ho
      exact ⟨spurious_heeds ht, (onExchanged_cases _ _ _ _).clear hc, by simp [ht]⟩
    case h_2 => cases ho
  case wake =>
    split_ifs at ho with h
    cases ho
    refine ⟨.keeps rfl rfl (by simp) (by simp), trivial, ?_⟩
    rcases h with h | h <;> simp [h]
  case eintr =>
    split at ho
    case h_1 ht =>
      cases ho
      exact ⟨.keeps rfl rfl (fun _ => .inl ht) (by simp), trivial, by simp [ht]⟩
    case h_2 ht =>
      cases ho
      exact ⟨.keeps rfl rfl (fun _ => .inr ht) (by simp), trivial, by simp [ht]⟩
    case h_3 ht =>
      cases ho
      exact ⟨.keeps rfl rfl (by simp [ht]) (by simp [ht]), hc, by simp [ht]⟩
    case h_4 => cases ho
  case fail =>
    split_ifs at ho with h
    cases ho
    refine ⟨.keeps rfl rfl (by simp [Thread.returns]) (by simp [Thread.returns]), trivial, ?_⟩
    rcases h with h | h | h <;> simp [h]

end Thread

omit [Fintype ι] in
theorem pending_of_ne {s : State ι} {i : ι} {sh : Shared} {t : Thread}
    (h : Pending s) (hi : (s.thread i).pc ≠ .bcastRd) (hl : sh.lock.rdpend = s.shared.lock.rdpend) :
    Pending ⟨sh, Function.update s.thread i t⟩ := by
  rcases h with h | ⟨j, hj⟩
  · exact .inl (hl.trans h)
  · have hji : j ≠ i := by
      rintro rfl
      exact hi hj
    exact .inr ⟨j, by simpa only [Function.update_of_ne hji] using hj⟩

/-- A thread that moves keeps the readers covered. -/
theorem Heeds.covered {s : State ι} {i : ι} {a : Act} {o : Shared × Thread}
    (h : Heeds s.shared (s.thread i) a o) (hi : (s.thread i).pc ≠ .bcastRd)
    (hg : Announces s (i, a))
    (hc : Pending s ∨ (∀ j, (s.thread j).pc ≠ .sleepRd) ∧ unstarted s ≤ s.shared.rd.toNat) :
    Pending ⟨o.1, Function.update s.thread i o.2⟩ ∨
      (∀ j, (Function.update s.thread i o.2 j).pc ≠ .sleepRd) ∧
        total Thread.unstarted (Function.update s.thread i o.2) ≤ o.1.rd.toNat := by
  have hsleep {t : Thread} (hs : ∀ j, (s.thread j).pc ≠ .sleepRd) (ht : t.pc ≠ .sleepRd) (j : ι) :
      (Function.update s.thread i t j).pc ≠ .sleepRd := by
    by_cases hj : j = i
    · simpa only [hj, Function.update_self] using ht
    · simpa only [Function.update_of_ne hj] using hs j
  have htot : unstarted s = others Thread.unstarted s.thread i + (s.thread i).unstarted :=
    total_eq _ _ i
  cases h with
  | pending hp =>
    refine .inl ?_
    rcases hp with hp | hp
    · exact .inl hp
    · exact .inr ⟨i, by simpa only [Function.update_self] using hp⟩
  | keeps hl hrd hw hs =>
    rcases hc with hc | ⟨hc, hle⟩
    · exact .inl (pending_of_ne hc hi hl)
    · refine .inr ⟨hsleep hc hs, ?_⟩
      have hle' : o.2.unstarted ≤ (s.thread i).unstarted := by
        simp only [Thread.unstarted]
        split_ifs with h₁ h₂
        · exact le_rfl
        · exact absurd ((hw h₁).resolve_left h₂) (hc i)
        · exact Nat.zero_le _
        · exact le_rfl
      rw [total_update, hrd]
      omega
  | consumes ht hrd =>
    rcases hc with hc | ⟨hc, hle⟩
    · exact .inl (pending_of_ne hc hi rfl)
    · refine .inr ⟨hsleep hc (by simp), ?_⟩
      have h₁ : (s.thread i).unstarted = 1 := by simp [Thread.unstarted, ht]
      rw [total_update]
      simp only [hrd, Bool.toNat_true, Bool.toNat_false, Thread.unstarted] at hle ⊢
      rw [if_neg (by simp)]
      omega
  | sleeps ht hrd =>
    rcases hc with hc | ⟨hc, hle⟩
    · exact .inl (pending_of_ne hc hi rfl)
    · have h₁ : (s.thread i).unstarted = 1 := by simp [Thread.unstarted, ht]
      simp only [hrd, Bool.toNat_false] at hle
      omega
  | misses ha ht hle => exact .inl (pending_of_ne (hg ha ht hle) hi rfl)

/-- What a broadcast does to the waiting readers. -/
theorem bcast_pc {s : State ι} {i : ι} (hpc : (s.thread i).pc = .bcastRd) (j : ι) :
    ((bcast s i).thread j).pc = if j = i then .idle
      else if (s.thread j).pc = .sleepRd then .load .lockRead else (s.thread j).pc := by
  simp only [bcast]
  by_cases hj : j = i
  · rw [if_pos hj]
    subst hj
    split_ifs <;> simp [Thread.returns]
  · rw [if_neg hj]
    split_ifs with h₁ h₂ h₂
    · simp [Function.update_of_ne hj, h₂]
    · simp [Function.update_of_ne hj, h₂]
    · exact absurd ⟨j, by simpa only [Function.update_of_ne hj] using h₂⟩ h₁
    · simp [Function.update_of_ne hj]

/-- After a broadcast nobody sleeps, and if nobody did before the RD bit is set. -/
theorem bcast_covered {s : State ι} {i : ι} (hpc : (s.thread i).pc = .bcastRd)
    (hg : CatchesAll s (i, .go)) :
    Pending (bcast s i) ∨ (∀ j, ((bcast s i).thread j).pc ≠ .sleepRd) ∧
      unstarted (bcast s i) ≤ (bcast s i).shared.rd.toNat := by
  have hl := (bcast_shared s i).1
  by_cases hr : s.shared.lock.rdpend = true
  · exact .inl (.inl (by rw [hl, hr]))
  by_cases hb : ∃ j, j ≠ i ∧ (s.thread j).pc = .bcastRd
  · obtain ⟨j, hji, hj⟩ := hb
    refine .inl (.inr ⟨j, ?_⟩)
    rw [bcast_pc hpc, if_neg hji, hj, if_neg (by simp)]
  push Not at hb
  obtain ⟨hone, hnone⟩ := hg rfl hpc (by simpa using hr) hb
  have hun : unstarted (bcast s i) = unstarted s := by
    refine total_congr fun j => ?_
    simp only [Thread.unstarted, bcast_pc hpc]
    by_cases hj : j = i
    · simp [hj, hpc]
    · by_cases hs : (s.thread j).pc = .sleepRd <;> simp [hj, hs]
  refine .inr ⟨fun j => ?_, ?_⟩
  · rw [bcast_pc hpc]
    split_ifs with h₁ h₂
    · simp
    · simp
    · exact h₂
  · rw [hun]
    by_cases hs : ∃ j, (s.thread j).pc = .sleepRd
    · rw [hnone hs]
      exact Nat.zero_le _
    · have hnot : ¬ ∃ j, (Function.update s.thread i ((s.thread i).returns .ok) j).pc =
          .sleepRd := by
        rintro ⟨j, hj⟩
        by_cases hji : j = i
        · simp [hji, Thread.returns] at hj
        · exact hs ⟨j, by simpa only [Function.update_of_ne hji] using hj⟩
      simpa only [bcast, if_neg hnot, Bool.toNat_true] using hone

theorem step_readInv {s s' : State ι} {l : ι × Act} (h : ReadInv s) (hg : Attended s l)
    (hs : step s l = some s') : ReadInv s' := by
  obtain ⟨i, a⟩ := l
  simp only [step] at hs
  split_ifs at hs with hfail hbc
  · obtain ⟨hpc, rfl⟩ := hbc
    cases hs
    refine ⟨fun j => ?_, bcast_covered hpc hg.1⟩
    have hj := h.clear j
    simp only [Thread.Clear, bcast_pc hpc] at hj ⊢
    split_ifs
    · trivial
    · trivial
    · exact hj
  · obtain ⟨o, ho, rfl⟩ := Option.map_eq_some_iff.mp hs
    obtain ⟨hh, hclear, hi⟩ := threadStep_heeds (h.clear i) ho
    refine ⟨fun j => ?_, hh.covered hi hg.2 h.covered⟩
    by_cases hj : j = i
    · subst hj
      simpa only [Function.update_self] using hclear
    · simpa only [Function.update_of_ne hj] using h.clear j

theorem reach_readInv {s : State ι}
    (h : Reach (fun s l s' => Attended s l ∧ step s l = some s') (· = initial ι) s) :
    ReadInv s := by
  refine h.invariant (I := ReadInv) (fun t ht => ?_) fun _ _ _ hI hs => step_readInv hI hs.1 hs.2
  subst ht
  exact ⟨fun _ => trivial, .inr ⟨fun _ => by simp [initial], by
    simp [unstarted, total, initial, Thread.unstarted]⟩⟩

/-- No reader is left asleep when every broadcast catches all of them. -/
theorem not_stranded_of_attended {s : State ι}
    (h : Reach (fun s l s' => Attended s l ∧ step s l = some s') (· = initial ι) s) :
    ¬ Stranded s := by
  intro hs
  rcases (reach_readInv h).covered with hp | ⟨hn, -⟩
  · rcases hp with hp | ⟨i, hi⟩
    · simp [hs.free] at hp
    · have hrest := hs.rest i
      simp [hi] at hrest
  · obtain ⟨i, hi⟩ := hs.blocked
    exact hn i hi

/-- A reader falls asleep behind a writer, which leaves and wakes it up. -/
def wokenRun : List (Fin 2 × Act) :=
  does 0 .lockWrite 2 ++ does 1 .lockRead 3 ++ does 0 .unlockWrite 3

/-- The sleeping reader gets the RD bit. -/
theorem not_stranded_of_attended_woken : ∃ s : State (Fin 2),
    runs (guarded Attended) (initial (Fin 2)) wokenRun = some s ∧ ¬ Stranded s := by
  obtain ⟨s, hs⟩ := Option.isSome_iff_exists.mp (by decide :
    (runs (guarded Attended) (initial (Fin 2)) wokenRun).isSome = true)
  refine ⟨s, hs, not_stranded_of_attended ?_⟩
  exact (reach_of_guarded hs).mono fun _ _ _ h => ⟨h.1, h.2.1⟩

/-- Exchanges are exact, and a wait for readers ends with the RD bit only. -/
def Flagged (s : State ι) (l : ι × Act) : Prop := Exact s l ∧ l.2 ≠ .wake

instance (s : State ι) (l : ι × Act) : Decidable (Flagged s l) :=
  inferInstanceAs (Decidable (_ ∧ _))

/-- Two readers announce themselves to a writer, which leaves before either
begins its wait. One of them gets the RD bit and reads, the other one waits. -/
def overtakenRun : List (Fin 3 × Act) :=
  does 0 .lockWrite 2 ++ does 1 .lockRead 2 ++ does 2 .lockRead 2 ++ does 0 .unlockWrite 3 ++
    List.replicate 3 (1, .go) ++ does 1 .unlockRead 2 ++ [(2, .go)]

/-- The one RD bit left by the broadcast serves one of two readers. -/
theorem reader_stranded_overtaken : ¬ ∀ s : State (Fin 3),
    Reach (Step Flagged) (· = initial (Fin 3)) s → ¬ Stranded s := by
  intro h
  obtain ⟨s, hs, hd⟩ := Option.map_eq_some_iff.mp (by decide :
    (runs (guarded Flagged) (initial (Fin 3)) overtakenRun).map
        (fun s => (s.shared, (s.thread 0).pc, (s.thread 1).pc, (s.thread 2).pc)) =
      some (⟨⟨wrBias, false⟩, false, false, none⟩, .idle, .idle, .sleepRd))
  simp only [Prod.mk.injEq] at hd
  obtain ⟨hsh, h₀, h₁, h₂⟩ := hd
  refine h s (reach_of_guarded hs) ⟨by rw [hsh], fun i => ?_, by rw [hsh], 2, h₂⟩
  fin_cases i
  · exact .inl h₀
  · exact .inl h₁
  · exact .inr (.inr (.inl h₂))

end Libevl.Rwlock
