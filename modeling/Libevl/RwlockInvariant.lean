import Libevl.Rwlock

/-!
# What the lock count says

The count is tied to the number of read holds, write holds, registered writers
and pending hand-overs. The three phases below cover every state of a run whose
exchanges are exact; a thread that moves changes its own contribution only.
-/
namespace Libevl.Rwlock
open Transition

/-- `r`, `w`, `q` and `p` count read holds, write holds, registered writers and
threads about to post the WR bit. `K` says how many writers may queue behind
readers. -/
inductive Phase (K : ℕ → Prop) (sh : Shared) (r w q p : ℕ) : Prop
  /-- The lock is free or held by readers, and nobody waits for writing. -/
  | open : sh.lock.count = wrBias - r → r < wrBias → w = 0 → q = 0 → p = 0 → sh.wr = false →
      sh.lock.rdpend = false → Phase K sh r w q p
  /-- A writer holds the lock, or the lock is on its way to a registered one. -/
  | owned : r = 0 → w + p + sh.wr.toNat = 1 → p + sh.wr.toNat ≤ q →
      sh.lock.count = (p + sh.wr.toNat : ℕ) - (q : ℤ) → Phase K sh r w q p
  /-- Writers have registered behind readers, and none has been let in. -/
  | behind : w = 0 → p = 0 → sh.wr = false → 1 ≤ q → 2 ≤ r + q →
      sh.lock.count = 1 - (r : ℤ) - q → K q → Phase K sh r w q p

/-- What a thread remembers of its own operation. -/
def Thread.Ok (t : Thread) : Prop :=
  match t.pc with
  | .load .unlockRead | .cas .unlockRead _ => 0 < t.reads
  | .load .unlockWrite | .cas .unlockWrite _ => 0 < t.writes
  | .cas .trylockWrite prev => prev.count = wrBias
  | .cas .trylockRead prev => 0 < prev.count
  | _ => True

variable {K : ℕ → Prop}

theorem wrBias_eq : wrBias = 1073741823 := rfl

/-- What the signed 31-bit `count` field can hold. -/
def Inner.Ranged (w : Inner) : Prop := -2 ^ 30 ≤ w.count ∧ w.count < 2 ^ 30

/-- A decrement that underflows comes out positive. -/
theorem narrow31_pred {x : ℤ} (h₁ : -2 ^ 30 ≤ x) (h₂ : x < 2 ^ 30) (h : narrow31 (x - 1) ≤ 0) :
    narrow31 (x - 1) = x - 1 := by
  rw [narrow31, Int.bmod_def] at *
  split at h <;> split <;> omega

/-- The phase constrains the count only through the four numbers. -/
theorem Phase.count_range {sh : Shared} {r w q p : ℕ} (h : Phase K sh r w q p)
    (hb : (r + w + q : ℕ) < wrBias) : -wrBias < sh.lock.count ∧ sh.lock.count ≤ wrBias := by
  rcases h with ⟨hc, hr, -⟩ | ⟨-, -, hp, hc⟩ | ⟨-, -, -, hq, hr, hc, -⟩ <;> omega

theorem Phase.ranged {sh : Shared} {r w q p : ℕ} (h : Phase K sh r w q p)
    (hb : (r + w + q : ℕ) < wrBias) : sh.lock.Ranged := by
  have hB := wrBias_eq
  obtain ⟨hlo, hhi⟩ := h.count_range hb
  exact ⟨by omega, by omega⟩

/-- The reader-pending bit is clear while the count is positive. -/
theorem Phase.rdpend_false {sh : Shared} {r w q p : ℕ} (h : Phase K sh r w q p)
    (hc : 0 < sh.lock.count) : sh.lock.rdpend = false := by
  rcases h with ⟨-, -, -, -, -, -, hr⟩ | ⟨-, -, hp, hc'⟩ | ⟨-, -, -, -, hr, hc', -⟩
  · exact hr
  · omega
  · omega

/-- A positive count excludes writers. -/
theorem Phase.pos_count {sh : Shared} {r w q p : ℕ} (h : Phase K sh r w q p)
    (hc : 0 < sh.lock.count) : w = 0 ∧ q = 0 ∧ p = 0 ∧ sh.wr = false ∧
      sh.lock.count = wrBias - r := by
  rcases h with ⟨hc', -, hw, hq, hp, hwr, -⟩ | ⟨-, -, hp, hc'⟩ | ⟨-, -, -, -, hr, hc', -⟩
  · exact ⟨hw, hq, hp, hwr, hc'⟩
  · omega
  · omega

/-- What the code may do between the atomic read and the exchange. -/
inductive Loaded (f : Fn) (sh : Shared) (t : Thread) : Shared × Thread → Prop
  | exchange : (f = .trylockRead → 0 < sh.lock.count) →
      (f = .trylockWrite → narrow31 (sh.lock.count - wrBias) = 0) →
      Loaded f sh t (sh, { t with pc := .cas f sh.lock })
  | again : f = .trylockRead ∨ f = .trylockWrite ∧ narrow31 (sh.lock.count - wrBias) < 0 →
      Loaded f sh t (sh, t.returns .again)
  | abort : f ≠ .trylockWrite ∧ 0 < sh.lock.count ∧
      (sh.lock.rdpend = true ∨ f = .unlockWrite) ∨
      f = .trylockWrite ∧ 0 < narrow31 (sh.lock.count - wrBias) →
      Loaded f sh t ({ sh with failed := some f }, t)

theorem onLoad_cases (f : Fn) (sh : Shared) (t : Thread) : Loaded f sh t (onLoad f sh t) := by
  cases f <;> dsimp only [onLoad, nextWord]
  case lockRead =>
    split_ifs with hc hr
    · exact .exchange (by simp) (by simp)
    · exact .abort (.inl ⟨by simp, by omega, .inl hr⟩)
    · exact .exchange (by simp) (by simp)
  case trylockRead =>
    split_ifs with hc hr
    · exact .again (.inl rfl)
    · exact .abort (.inl ⟨by simp, by omega, .inl hr⟩)
    · exact .exchange (fun _ => by omega) (by simp)
  case unlockRead => exact .exchange (by simp) (by simp)
  case lockWrite => exact .exchange (by simp) (by simp)
  case trylockWrite =>
    split_ifs with hc hn
    · exact .abort (.inr ⟨rfl, hc⟩)
    · exact .again (.inr ⟨rfl, hn⟩)
    · exact .exchange (by simp) (fun _ => by omega)
  case unlockWrite =>
    split_ifs with hc hz
    · exact .exchange (by simp) (by simp)
    · exact .exchange (by simp) (by simp)
    · exact .abort (.inl ⟨by simp, by omega, .inr rfl⟩)

/-- The phase of the whole system, seen from a thread and the counts of the others. -/
def Phase.With (K : ℕ → Prop) (sh : Shared) (t : Thread) (r w q p : ℕ) : Prop :=
  Phase K sh (r + t.reads) (w + t.writes) (q + t.queued) (p + t.posting)

/-- The requests outstanding, seen in the same way. -/
def Thread.load (t : Thread) (r w q : ℕ) : ℕ := r + t.reads + (w + t.writes) + (q + t.queued)

theorem Phase.congr {sh sh' : Shared} {r w q p : ℕ} (h : Phase K sh r w q p)
    (hl : sh'.lock = sh.lock) (hw : sh'.wr = sh.wr) : Phase K sh' r w q p := by
  rcases h with ⟨h₁, h₂, h₃, h₄, h₅, h₆, h₇⟩ | ⟨h₁, h₂, h₃, h₄⟩ | ⟨h₁, h₂, h₃, h₄, h₅, h₆, h₈⟩
  · exact .open (hl ▸ h₁) h₂ h₃ h₄ h₅ (hw ▸ h₆) (hl ▸ h₇)
  · exact .owned h₁ (hw ▸ h₂) (hw ▸ h₃) (by rw [hl, hw]; exact h₄)
  · exact .behind h₁ h₂ (hw ▸ h₃) h₄ h₅ (hl ▸ h₆) h₈

theorem onLoad_phase {f : Fn} {sh sh' : Shared} {t t' : Thread} {r w q p : ℕ}
    (ht : t.pc = .load f) (hok : t.Ok) (h : Phase.With K sh t r w q p)
    (hc : sh.lock.Ranged) (hs : onLoad f sh t = (sh', t')) :
    Phase.With K sh' t' r w q p ∧ t'.Ok ∧
      (sh'.failed = sh.failed ∨ sh'.failed = some .trylockWrite) := by
  have hB := wrBias_eq
  obtain ⟨hlo, hhi⟩ := hc
  have hcase := onLoad_cases f sh t
  rw [hs] at hcase
  cases hcase with
  | exchange hr hw =>
    refine ⟨?_, ?_, .inl rfl⟩
    · simpa [Phase.With, Thread.queued, Thread.posting, ht] using h
    · cases f <;> simp_all only [Thread.Ok, forall_const]
      have h0 := narrow31_eq_zero (by omega) (by omega) hw
      omega
  | again =>
    refine ⟨?_, trivial, .inl rfl⟩
    simpa [Phase.With, Thread.queued, Thread.posting, Thread.returns, ht] using h
  | abort hbad =>
    refine ⟨h.congr rfl rfl, hok, .inr ?_⟩
    rcases hbad with ⟨-, hc, hr | rfl⟩ | ⟨rfl, -⟩
    · simp [h.rdpend_false hc] at hr
    · obtain ⟨hw, -⟩ := h.pos_count hc
      simp only [Thread.Ok, ht] at hok
      omega
    · rfl

section Moves

variable {sh : Shared} {r w q p : ℕ}

/-- A reader takes one from a positive count. -/
theorem Phase.take_read (h : Phase K sh r w q p) (hc : 0 < sh.lock.count)
    (hb : ((r + 1 : ℕ) : ℤ) < wrBias) :
    Phase K { sh with lock := ⟨narrow31 (sh.lock.count - 1), false⟩ } (r + 1) w q p := by
  have hB := wrBias_eq
  obtain ⟨hw, hq, hp, hwr, hcnt⟩ := h.pos_count hc
  have hn : narrow31 (sh.lock.count - 1) = sh.lock.count - 1 := narrow31_eq (by omega) (by omega)
  exact .open (by dsimp only; omega) (by omega) hw hq hp hwr rfl

/-- A reader that finds a writer announces itself. -/
theorem Phase.announce (h : Phase K sh r w q p) (hc : sh.lock.count ≤ 0) :
    Phase K { sh with lock := ⟨sh.lock.count, true⟩ } r w q p := by
  rcases h with ⟨h₁, h₂, -⟩ | ⟨h₁, h₂, h₃, h₄⟩ | ⟨h₁, h₂, h₃, h₄, h₅, h₆, h₈⟩
  · omega
  · exact .owned h₁ h₂ h₃ h₄
  · exact .behind h₁ h₂ h₃ h₄ h₅ h₆ h₈

/-- The last reader in front of a single writer hands the lock over. -/
theorem Phase.drop_read (h : Phase K sh (r + 1) w q p) (hc : sh.lock.Ranged) :
    Phase K { sh with lock := nextWord .unlockRead sh.lock } r w q
      (p + if (nextWord .unlockRead sh.lock).count = 0 then 1 else 0) := by
  have hB := wrBias_eq
  obtain ⟨hlo, hhi⟩ := hc
  rcases h with ⟨h₁, h₂, h₃, h₄, h₅, h₆, h₇⟩ | ⟨h₁, -⟩ | ⟨h₁, h₂, h₃, h₄, h₅, h₆, h₈⟩
  · have hn : narrow31 (sh.lock.count + 1) = sh.lock.count + 1 :=
      narrow31_eq (by omega) (by omega)
    simp only [nextWord, hn]
    rw [if_neg (by omega)]
    exact .open (by dsimp only; omega) (by omega) h₃ h₄ h₅ h₆ h₇
  · omega
  · have hn : narrow31 (sh.lock.count + 1) = sh.lock.count + 1 :=
      narrow31_eq (by omega) (by omega)
    simp only [nextWord, hn]
    split_ifs with hz
    · refine .owned (by omega) ?_ ?_ ?_ <;> simp only [h₁, h₂, h₃, Bool.toNat_false] <;> omega
    · exact .behind h₁ h₂ h₃ h₄ (by omega) (by dsimp only; omega) h₈

/-- A registration passes its assertion while the count does not underflow. -/
theorem Phase.register_le (h : Phase K sh r w q p) (hb : ((r + w + q : ℕ) : ℤ) < wrBias) :
    (nextWord .lockWrite sh.lock).count ≤ 0 := by
  have hB := wrBias_eq
  obtain ⟨hlo, hhi⟩ := h.count_range hb
  simp only [nextWord]
  split_ifs with hc
  · rw [narrow31_eq (by omega) (by omega)]
    dsimp only
    omega
  · rw [narrow31_eq (by omega) (by omega)]
    dsimp only
    omega

/-- A writer registers, and owns the lock at once if the count was the bias. -/
theorem Phase.register (h : Phase K sh r w q p) (hcr : sh.lock.Ranged) (hK : K 1)
    (hjoin : K q → 2 ≤ r + q → sh.lock.count ≤ 0 → K (q + 1))
    (hle : (nextWord .lockWrite sh.lock).count ≤ 0) :
    Phase K { sh with lock := nextWord .lockWrite sh.lock } r
      (w + if (nextWord .lockWrite sh.lock).count = 0 then 1 else 0)
      (q + if (nextWord .lockWrite sh.lock).count = 0 then 0 else 1) p := by
  have hB := wrBias_eq
  obtain ⟨hlo, hhi⟩ := hcr
  by_cases hc : sh.lock.count ≤ 0
  · simp only [nextWord, if_pos hc] at hle
    have hn : narrow31 (sh.lock.count - 1) = sh.lock.count - 1 := narrow31_pred hlo hhi hle
    simp only [nextWord, if_pos hc, hn]
    rw [if_neg (by omega), if_neg (by omega)]
    rcases h with ⟨h₁, h₂, -⟩ | ⟨h₁, h₂, h₃, h₄⟩ | ⟨h₁, h₂, h₃, h₄, h₅, h₆, h₈⟩
    · omega
    · exact .owned h₁ h₂ (by dsimp only; omega) (by dsimp only; omega)
    · exact .behind h₁ h₂ h₃ (by omega) (by omega) (by dsimp only; omega) (hjoin h₈ h₅ hc)
  · obtain ⟨hw, hq, hp, hwr, hcnt⟩ := h.pos_count (by omega)
    have hn : narrow31 (sh.lock.count - wrBias) = sh.lock.count - wrBias :=
      narrow31_eq (by omega) (by omega)
    simp only [nextWord, if_neg hc, hn]
    split_ifs with hz
    · refine .owned (by omega) ?_ ?_ ?_ <;> simp only [hw, hq, hp, hwr, Bool.toNat_false] <;>
        omega
    · exact .behind (by omega) hp hwr (by omega) (by omega) (by dsimp only; omega) (by
        simpa only [hq] using hK)

/-- A free lock goes to the writer that asks. -/
theorem Phase.take_write (h : Phase K sh r w q p) (hc : sh.lock.count = wrBias) :
    Phase K { sh with lock := nextWord .trylockWrite sh.lock } r (w + 1) q p := by
  have hB := wrBias_eq
  obtain ⟨hw, hq, hp, hwr, hcnt⟩ := h.pos_count (by omega)
  have hn : narrow31 (sh.lock.count - wrBias) = 0 := by rw [hc, sub_self]; rfl
  refine .owned (by omega) ?_ ?_ ?_ <;> simp only [nextWord, hn, hw, hq, hp, hwr, Bool.toNat_false]
  all_goals omega

/-- A writer leaves to the next one, or frees the lock. -/
theorem Phase.drop_write (h : Phase K sh r (w + 1) q p) (hc : sh.lock.Ranged) :
    Phase K { sh with lock := nextWord .unlockWrite sh.lock } r w q
      (p + if sh.lock.count < 0 then 1 else 0) := by
  have hB := wrBias_eq
  obtain ⟨hlo, hhi⟩ := hc
  rcases h with ⟨-, -, h₃, -⟩ | ⟨h₁, h₂, h₃, h₄⟩ | ⟨h₁, -⟩
  · omega
  · cases hwr : sh.wr
    · simp only [hwr, Bool.toNat_false] at h₂ h₃ h₄
      by_cases hc : sh.lock.count < 0
      · have hn : narrow31 (sh.lock.count + 1) = sh.lock.count + 1 :=
          narrow31_eq (by omega) (by omega)
        simp only [nextWord, if_pos hc, hn]
        refine .owned h₁ ?_ ?_ ?_ <;> simp only [Bool.toNat_false] <;> omega
      · simp only [nextWord, if_neg hc]
        exact .open (by dsimp only; omega) (by omega) (by omega) (by omega) (by omega) rfl rfl
    · simp only [hwr, Bool.toNat_true] at h₂
      omega
  · omega

/-- One registered writer consumes the WR bit. -/
theorem Phase.grant (h : Phase K sh r w (q + 1) p) (hwr : sh.wr = true) :
    Phase K { sh with wr := false } r (w + 1) q p := by
  rcases h with ⟨-, -, -, -, -, h₆, -⟩ | ⟨h₁, h₂, h₃, h₄⟩ | ⟨-, -, h₃, -⟩
  · simp [hwr] at h₆
  · simp only [hwr, Bool.toNat_true] at h₂ h₃ h₄
    refine .owned h₁ ?_ ?_ ?_ <;> simp only [Bool.toNat_false] <;> omega
  · simp [hwr] at h₃

/-- The hand-over becomes a pending bit. -/
theorem Phase.post (h : Phase K sh r w q (p + 1)) : Phase K { sh with wr := true } r w q p := by
  rcases h with ⟨-, -, -, -, h₅, -⟩ | ⟨h₁, h₂, h₃, h₄⟩ | ⟨-, h₂, -⟩
  · omega
  · cases hwr : sh.wr <;> simp only [hwr, Bool.toNat_true, Bool.toNat_false] at h₂ h₃ h₄
    · refine .owned h₁ ?_ ?_ ?_ <;> simp only [Bool.toNat_true] <;> omega
    · omega
  · omega

end Moves

section Thread

variable {sh : Shared} {t : Thread} {r w q p : ℕ}

/-- An exchange on a matching word moves the count and the holds together. -/
theorem onExchanged_phase {f : Fn} (ht : t.pc = .cas f sh.lock) (hok : t.Ok)
    (h : Phase.With K sh t r w q p) (hc : sh.lock.Ranged)
    (hle : f = .lockWrite → (nextWord .lockWrite sh.lock).count ≤ 0) {o : Shared × Thread}
    (ho : onExchanged f sh.lock { sh with lock := nextWord f sh.lock } t = o)
    (hb' : ((r + o.2.reads : ℕ) : ℤ) < wrBias) (hK : K 1)
    (hjoin : f = .lockWrite → K q → 2 ≤ r + t.reads + q → sh.lock.count ≤ 0 → K (q + 1)) :
    Phase.With K o.1 o.2 r w q p ∧ o.1.failed = sh.failed ∧ o.2.Ok := by
  subst ho
  have hq : t.queued = 0 := by simp [Thread.queued, ht]
  have hp : t.posting = 0 := by simp [Thread.posting, ht]
  simp only [Phase.With, hq, hp, Nat.add_zero] at h
  cases f
  case lockRead =>
    by_cases hc : 0 < sh.lock.count
    · simp only [onExchanged, nextWord, if_pos hc, if_neg (not_le.mpr hc)] at hb' ⊢
      exact ⟨h.take_read hc (by omega), by trivial, trivial⟩
    · simp only [onExchanged, nextWord, if_neg hc, if_pos (not_lt.mp hc)]
      exact ⟨h.announce (not_lt.mp hc), by trivial, trivial⟩
  case trylockRead =>
    simp only [Thread.Ok, ht] at hok
    simp only [onExchanged, nextWord] at hb' ⊢
    exact ⟨h.take_read hok (by omega), by trivial, trivial⟩
  case unlockRead =>
    simp only [Thread.Ok, ht] at hok
    have hr : r + t.reads = r + (t.reads - 1) + 1 := by omega
    rw [hr] at h
    have hd := h.drop_read hc
    simp only [onExchanged]
    split_ifs with hz
    · rw [if_pos hz] at hd
      exact ⟨hd, rfl, trivial⟩
    · rw [if_neg hz] at hd
      exact ⟨hd, rfl, trivial⟩
  case lockWrite =>
    have hd := h.register hc hK (hjoin rfl) (hle rfl)
    simp only [onExchanged]
    rw [if_neg (not_lt.mpr (hle rfl))]
    split_ifs with hz
    · rw [if_neg hz, if_neg hz] at hd
      exact ⟨hd, rfl, trivial⟩
    · rw [if_pos (not_not.mp hz), if_pos (not_not.mp hz)] at hd
      exact ⟨hd, rfl, trivial⟩
  case trylockWrite =>
    simp only [Thread.Ok, ht] at hok
    simp only [onExchanged]
    exact ⟨h.take_write hok, by trivial, trivial⟩
  case unlockWrite =>
    simp only [Thread.Ok, ht] at hok
    have hr : w + t.writes = w + (t.writes - 1) + 1 := by omega
    rw [hr] at h
    have hd := h.drop_write hc
    simp only [onExchanged]
    split_ifs with hz hrd
    · rw [if_pos hz] at hd
      exact ⟨hd, rfl, trivial⟩
    · rw [if_neg hz] at hd
      exact ⟨hd, rfl, trivial⟩
    · rw [if_neg hz] at hd
      exact ⟨hd, rfl, trivial⟩

/-- One step of one thread keeps the phase, and only `evl_trylock_write` can
fail an assertion. -/
theorem threadStep_phase {a : Act} (hs : a ≠ .spurious) (hf : a ≠ .fail) (hok : t.Ok)
    (h : Phase.With K sh t r w q p) (hc : sh.lock.Ranged)
    (hle : a = .go → t.pc = .cas .lockWrite sh.lock → (nextWord .lockWrite sh.lock).count ≤ 0)
    {o : Shared × Thread} (ho : threadStep sh t a = some o)
    (hb' : ((r + o.2.reads : ℕ) : ℤ) < wrBias) (hK : K 1)
    (hjoin : a = .go → t.pc = .cas .lockWrite sh.lock → K q → 2 ≤ r + t.reads + q →
      sh.lock.count ≤ 0 → K (q + 1)) :
    Phase.With K o.1 o.2 r w q p ∧
      (o.1.failed = sh.failed ∨ o.1.failed = some .trylockWrite) ∧ o.2.Ok := by
  cases a
  case call f =>
    simp only [threadStep] at ho
    split_ifs at ho with hc
    obtain ⟨hi, hm⟩ := hc
    cases ho
    refine ⟨?_, .inl rfl, ?_⟩
    · simpa [Phase.With, Thread.queued, Thread.posting, hi] using h
    · cases f <;> simp_all [Thread.Ok, Thread.mayCall]
  case go =>
    simp only [threadStep] at ho
    split at ho
    case h_1 f ht =>
      cases ho
      obtain ⟨h₁, h₂, h₃⟩ := onLoad_phase ht hok h hc rfl
      exact ⟨h₁, h₃, h₂⟩
    case h_2 f prev ht =>
      split_ifs at ho with hl
      · subst hl
        cases ho
        obtain ⟨h₁, h₂, h₃⟩ := onExchanged_phase ht hok h hc (fun hw => hle rfl (hw ▸ ht)) rfl hb'
          hK fun hw => hjoin rfl (hw ▸ ht)
        exact ⟨h₁, .inl h₂, h₃⟩
      · cases ho
        refine ⟨?_, .inl rfl, ?_⟩
        · simpa [Phase.With, Thread.queued, Thread.posting, ht] using h
        · cases f <;> simp_all [Thread.Ok, Fn.weak]
      · cases ho
        refine ⟨?_, .inl rfl, trivial⟩
        simpa [Phase.With, Thread.queued, Thread.posting, Thread.returns, ht] using h
    case h_3 ht =>
      split_ifs at ho
      all_goals
        cases ho
        refine ⟨?_, .inl rfl, trivial⟩
        have h' : Phase.With K sh { t with pc := .sleepRd } r w q p := by
          simpa [Phase.With, Thread.queued, Thread.posting, ht] using h
        exact h'.congr rfl rfl
    case h_4 ht =>
      split_ifs at ho with hwr
      cases ho
      refine ⟨?_, .inl rfl, trivial⟩
      have hq : t.queued = 1 := by simp [Thread.queued, ht]
      have hp : t.posting = 0 := by simp [Thread.posting, ht]
      simp only [Phase.With, hq, hp] at h
      exact h.grant hwr
    case h_5 ht =>
      cases ho
      refine ⟨?_, .inl rfl, trivial⟩
      have hq : t.queued = 0 := by simp [Thread.queued, ht]
      have hp : t.posting = 1 := by simp [Thread.posting, ht]
      simp only [Phase.With, hq, hp] at h
      exact h.post
    case h_6 => cases ho
  case spurious => exact absurd rfl hs
  case wake =>
    simp only [threadStep] at ho
    split_ifs at ho with ht
    cases ho
    refine ⟨?_, .inl rfl, trivial⟩
    rcases ht with ht | ht <;> simpa [Phase.With, Thread.queued, Thread.posting, ht] using h
  case eintr =>
    simp only [threadStep] at ho
    split at ho
    case h_4 => cases ho
    all_goals cases ho
    case h_3 ht => exact ⟨h, .inl rfl, hok⟩
    all_goals
      refine ⟨?_, .inl rfl, trivial⟩
      simpa [Phase.With, Thread.queued, Thread.posting, *] using h
  case fail => exact absurd rfl hf

end Thread

/-- What every state of a run with exact exchanges satisfies. -/
structure Inv {ι : Type*} [Fintype ι] (K : ℕ → Prop) (s : State ι) : Prop where
  phase : Phase K s.shared (readHolds s) (writeHolds s) (queued s) (posting s)
  thread : ∀ i, (s.thread i).Ok
  bound : (outstanding s : ℤ) < wrBias
  failed : s.shared.failed = none ∨ s.shared.failed = some .trylockWrite

variable {ι : Type*} [Fintype ι]

theorem initial_inv : Inv K (initial ι) where
  phase := .open (by simp [initial, readHolds, total]) (by simp [readHolds, initial, total, wrBias])
    (by simp [initial, writeHolds, total]) (by simp [initial, queued, total, Thread.queued])
    (by simp [initial, posting, total, Thread.posting]) rfl rfl
  thread _ := trivial
  bound := by
    simp [outstanding, readHolds, writeHolds, queued, initial, total, Thread.queued, wrBias]
  failed := .inl rfl

variable [DecidableEq ι]

/-- The counts of the others, seen from one thread. -/
theorem phase_iff_with (s : State ι) (i : ι) :
    Phase K s.shared (readHolds s) (writeHolds s) (queued s) (posting s) ↔
      Phase.With K s.shared (s.thread i) (others Thread.reads s.thread i)
        (others Thread.writes s.thread i) (others Thread.queued s.thread i)
        (others Thread.posting s.thread i) := by
  simp only [Phase.With, readHolds, writeHolds, queued, posting, total_eq _ _ i]

theorem outstanding_eq (s : State ι) (i : ι) :
    outstanding s = (s.thread i).load (others Thread.reads s.thread i)
      (others Thread.writes s.thread i) (others Thread.queued s.thread i) := by
  simp only [outstanding, readHolds, writeHolds, queued, Thread.load, total_eq _ _ i]

/-- What the others hold does not depend on the thread that moves. -/
theorem others_update {τ : Type*} (w : τ → ℕ) (f : ι → τ) (i : ι) (t : τ) :
    others w (Function.update f i t) i = others w f i := by
  have h := total_update w f i t
  rw [total_eq w _ i, Function.update_self] at h
  omega

/-- A broadcast moves no hold and no registered writer. -/
theorem bcast_weight {s : State ι} {i : ι} (hpc : (s.thread i).pc = .bcastRd) (j : ι) :
    ((bcast s i).thread j).reads = (s.thread j).reads ∧
      ((bcast s i).thread j).writes = (s.thread j).writes ∧
      ((bcast s i).thread j).queued = (s.thread j).queued ∧
      ((bcast s i).thread j).posting = (s.thread j).posting ∧
      ((s.thread j).Ok → ((bcast s i).thread j).Ok) := by
  by_cases hj : j = i
  · subst hj
    simp only [bcast]
    split_ifs <;> simp [Thread.returns, Thread.queued, Thread.posting, Thread.Ok, hpc]
  · simp only [bcast]
    split_ifs
    · dsimp only
      split_ifs with hs
      · simp only [Function.update_of_ne hj] at hs ⊢
        simp [Thread.queued, Thread.posting, Thread.Ok, hs]
      · simp [Function.update_of_ne hj]
    · simp [Function.update_of_ne hj]

theorem bcast_totals {s : State ι} {i : ι} (hpc : (s.thread i).pc = .bcastRd) :
    readHolds (bcast s i) = readHolds s ∧ writeHolds (bcast s i) = writeHolds s ∧
      queued (bcast s i) = queued s ∧ posting (bcast s i) = posting s :=
  ⟨total_congr fun j => (bcast_weight hpc j).1, total_congr fun j => (bcast_weight hpc j).2.1,
    total_congr fun j => (bcast_weight hpc j).2.2.1,
    total_congr fun j => (bcast_weight hpc j).2.2.2.1⟩

theorem bcast_shared (s : State ι) (i : ι) :
    (bcast s i).shared.lock = s.shared.lock ∧ (bcast s i).shared.wr = s.shared.wr ∧
      (bcast s i).shared.failed = s.shared.failed := by
  simp only [bcast]
  split_ifs <;> exact ⟨rfl, rfl, rfl⟩

theorem bcast_inv {s : State ι} {i : ι} (h : Inv K s) (hpc : (s.thread i).pc = .bcastRd) :
    Inv K (bcast s i) := by
  have hw := bcast_weight hpc
  obtain ⟨hr, hwr, hq, hp⟩ := bcast_totals hpc
  have hsh := bcast_shared s i
  refine ⟨?_, fun j => (hw j).2.2.2.2 (h.thread j), ?_, hsh.2.2 ▸ h.failed⟩
  · rw [hr, hwr, hq, hp]
    exact h.phase.congr hsh.1 hsh.2.1
  · simpa only [outstanding, hr, hwr, hq] using h.bound

/-- The invariant survives every step whose exchange is exact, provided that a
writer which joins others behind readers meets `K`. -/
theorem step_inv {ok : State ι → ι × Act → Prop} {s s' : State ι} {l : ι × Act}
    (hok : ∀ s l, ok s l → Exact s l) (hK : K 1)
    (hjoin : ok s l → l.2 = .go → (s.thread l.1).pc = .cas .lockWrite s.shared.lock →
      K (queued s) → 2 ≤ readHolds s + queued s → s.shared.lock.count ≤ 0 → K (queued s + 1))
    (h : Inv K s) (hs : Step ok s l s') : Inv K s' := by
  obtain ⟨hl, hstep, hb'⟩ := hs
  obtain ⟨hf, hsp⟩ := hok s l hl
  obtain ⟨i, a⟩ := l
  simp only [step] at hstep
  split_ifs at hstep with hfail hbc
  · cases hstep
    exact bcast_inv h hbc.1
  · obtain ⟨o, ho, rfl⟩ := Option.map_eq_some_iff.mp hstep
    have hph := (phase_iff_with s i).mp h.phase
    rw [outstanding_eq _ i] at hb'
    simp only [others_update, Function.update_self] at hb'
    have hj : a = .go → (s.thread i).pc = .cas .lockWrite s.shared.lock →
        K (others Thread.queued s.thread i) →
        2 ≤ others Thread.reads s.thread i + (s.thread i).reads +
          others Thread.queued s.thread i →
        s.shared.lock.count ≤ 0 → K (others Thread.queued s.thread i + 1) := by
      intro ha hpc
      have hq : queued s = others Thread.queued s.thread i := by
        simp [queued, total_eq _ _ i, Thread.queued, hpc]
      have hr : readHolds s = others Thread.reads s.thread i + (s.thread i).reads :=
        total_eq _ _ i
      rw [← hq, ← hr]
      exact hjoin hl ha hpc
    have hr' : ((others Thread.reads s.thread i + o.2.reads : ℕ) : ℤ) < wrBias := by
      simp only [Thread.load] at hb'
      omega
    obtain ⟨h₁, h₂, h₃⟩ := threadStep_phase hsp hf (h.thread i) hph (h.phase.ranged h.bound)
      (fun _ _ => h.phase.register_le h.bound) ho hr' hK hj
    refine ⟨?_, ?_, ?_, ?_⟩
    · rw [phase_iff_with _ i]
      simpa only [others_update, Function.update_self] using h₁
    · intro j
      by_cases hj : j = i
      · subst hj
        simpa using h₃
      · simpa [hj] using h.thread j
    · rw [outstanding_eq _ i]
      simpa only [others_update, Function.update_self] using hb'
    · rcases h₂ with h₂ | h₂
      · simpa only [h₂] using h.failed
      · exact .inr h₂

end Libevl.Rwlock
