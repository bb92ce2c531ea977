import Libevl.RingPtrSafety

/-!
# How far the tail and the threshold run

The tail is tested against a head which may be stale, and the threshold is set
after the store. A thread may draw one tail ticket after the test it has passed,
and decrements the threshold once for the head ticket it holds. Counting both
bounds the distance from head to tail, and the decrements which may still come
before the next stored ticket is reached.
-/
namespace Libevl.RingPtr
open Transition

/-- Whether a thread may still draw a tail ticket when the tail has reached `lim`. -/
def Pc.entitled (lim : ℕ) : Pc → ℕ
  | .enqFetchTail _ => 1
  | .enqLoadHead _ v => if v < lim then 1 else 0
  | .enqLoadCell _ t | .enqCheckHead _ t _ | .enqCas _ t _ | .enqReloadHead _ t =>
    if t + 1 < lim then 1 else 0
  | _ => 0

/-- Whether a thread has yet to decrement the threshold for its head ticket. -/
def Pc.owing : Pc → ℕ
  | .deqLoadEntry _ | .deqTake _ | .deqCas _ _ | .deqLoadTail _ | .catchupCas _ _
  | .catchupHead | .catchupTail _ | .deqSubFail | .deqSub => 1
  | _ => 0

/-- The enqueue has stored and has yet to see the threshold at its maximum. -/
def Pc.settling : Pc → Prop
  | .enqLoadThreshold | .enqStoreThreshold => True
  | _ => False

/-- The dequeue does not end before the tail has passed `h`. -/
def Pc.covers (h : ℕ) : Pc → Prop
  | .deqLoadEntry k | .deqTake k | .deqCas k _ | .deqLoadTail k => k = h
  | .catchupCas _ k | .catchupTail k => h < k
  | .catchupHead => True
  | _ => False

/-- What a dequeue remembers of the head is not ahead of it. -/
def Pc.Behind (head : ℕ) : Pc → Prop
  | .deqLoadTail k => k < head
  | .catchupCas _ k | .catchupTail k => k ≤ head
  | _ => True

variable {w : WordSize} {order : ℕ} {r : Ring} {g : Trace} {t : Thread}

theorem Pc.Behind.mono {pc : Pc} {h h' : ℕ} (hb : pc.Behind h) (hh : h ≤ h') : pc.Behind h' := by
  cases pc <;> simp only [Pc.Behind] at hb ⊢ <;> omega

theorem Pc.entitled_le_one (lim : ℕ) (pc : Pc) : pc.entitled lim ≤ 1 := by
  cases pc <;> simp only [Pc.entitled] <;> try split_ifs
  all_goals omega

theorem Pc.owing_le_one (pc : Pc) : pc.owing ≤ 1 := by
  cases pc <;> simp [Pc.owing]

/-- The tail after a step: it stays, it moves on by one or it is set to the head. -/
structure Window (order : ℕ) (r : Ring) (pc : Pc) (r' : Ring) (pc' : Pc) : Prop where
  below : ∀ lim, r.head + cells order ≤ lim → lim ≤ r.tail →
    r'.tail + pc'.entitled lim ≤ r.tail + pc.entitled lim
  crossing : ∀ lim, r.head + cells order ≤ lim → r.tail < lim → lim ≤ r'.tail →
    r'.tail = lim ∧ pc'.entitled lim = 0

/-- The threshold after a step. -/
inductive Quota (order : ℕ) (r : Ring) (pc : Pc) (g : Trace) (r' : Ring) (pc' : Pc) (g' : Trace) :
    Prop
  | stored : pc'.settling → Quota order r pc g r' pc' g'
  | settled : r'.threshold = threshold4 order → r'.head = r.head → g'.stored = g.stored →
      Quota order r pc g r' pc' g'
  | paid : ¬ pc.settling → g'.stored = g.stored →
      r.threshold + r.head + pc'.owing ≤ r'.threshold + r'.head + pc.owing →
      Quota order r pc g r' pc' g'

/-- The head tickets after a step. -/
structure Covered (r : Ring) (pc : Pc) (g : Trace) (r' : Ring) (pc' : Pc) (g' : Trace) :
    Prop where
  old : ∀ h < r.head, pc.covers h → h < r'.tail ∨ pc'.covers h
  new : ∀ h, r.head ≤ h → h < r'.head → pc'.covers h ∧ pc'.headTicket = some h
  held : ∀ h, pc.headTicket = some h → g'.gone h ∨ pc'.headTicket = some h
  gone : ∀ h, g.gone h → g'.gone h

/-- What one step of a thread does to the distances. -/
structure Pace (order : ℕ) (r : Ring) (t : Thread) (g : Trace) (e : Effect) : Prop where
  head_le : r.head ≤ e.ring.head
  tail_le : r.tail ≤ e.ring.tail
  cursor : e.thread.cursor ≤ e.ring.head
  behind : e.thread.pc.Behind e.ring.head
  window : Window order r t.pc e.ring e.thread.pc
  quota : Quota order r t.pc g e.ring e.thread.pc e.trace
  covered : Covered r t.pc g e.ring e.thread.pc e.trace

theorem Window.stay {r' : Ring} {pc pc' : Pc} (ht : r'.tail = r.tail)
    (hent : ∀ lim, r.head + cells order ≤ lim → lim ≤ r.tail →
      pc'.entitled lim ≤ pc.entitled lim) : Window order r pc r' pc' where
  below := fun lim h₁ h₂ => by simpa [ht] using hent lim h₁ h₂
  crossing := fun lim _ h₂ h₃ => absurd (ht ▸ h₃) (not_le.mpr h₂)

/-- A step of a thread without a head ticket. -/
theorem Covered.free {r' : Ring} {pc pc' : Pc} (hh : r'.head = r.head)
    (hcov : ∀ h, ¬ pc.covers h) (htk : pc.headTicket = none) : Covered r pc g r' pc' g where
  old := fun h _ hc => absurd hc (hcov h)
  new := fun h h₁ h₂ => absurd (hh ▸ h₂) (not_lt.mpr h₁)
  held := by simp [htk]
  gone := fun _ hk => hk

/-- A step that leaves head, tail and threshold alone. -/
theorem Pace.stay {r' : Ring} {t' : Thread} {g' : Trace} (hh : r'.head = r.head)
    (ht : r'.tail = r.tail) (hth : r'.threshold = r.threshold) (hcur : t'.cursor ≤ r.head)
    (hb : t'.pc.Behind r.head)
    (hent : ∀ lim, r.head + cells order ≤ lim → lim ≤ r.tail →
      t'.pc.entitled lim ≤ t.pc.entitled lim)
    (hq : t'.pc.settling ∨ ¬ t.pc.settling ∧ g'.stored = g.stored ∧ t'.pc.owing ≤ t.pc.owing)
    (hcov : ∀ h < r.head, t.pc.covers h → h < r.tail ∨ t'.pc.covers h)
    (htk : ∀ h, t.pc.headTicket = some h → g'.gone h ∨ t'.pc.headTicket = some h)
    (hg : ∀ h, g.gone h → g'.gone h) :
    Pace order r t g ⟨r', t', g'⟩ where
  head_le := hh.ge
  tail_le := ht.ge
  cursor := hcur.trans hh.ge
  behind := hb.mono hh.ge
  window := .stay ht hent
  quota := by
    rcases hq with hq | ⟨hset, hst, how⟩
    · exact .stored hq
    · exact .paid hset hst (by simp only [hh, hth]; omega)
  covered :=
    { old := fun h h₁ h₂ => by simpa [ht] using hcov h h₁ h₂
      new := fun h h₁ h₂ => absurd (hh ▸ h₂) (not_lt.mpr h₁)
      held := htk
      gone := hg }

/-- A step of an enqueue that leaves head, tail, threshold and trace alone. -/
theorem Pace.local {t' : Thread} (hcur : t'.cursor ≤ r.head) (hb : t'.pc.Behind r.head)
    (hent : ∀ lim, r.head + cells order ≤ lim → lim ≤ r.tail →
      t'.pc.entitled lim ≤ t.pc.entitled lim)
    (hset : t'.pc.settling ∨ ¬ t.pc.settling ∧ t'.pc.owing = 0) (hcov : ∀ h, ¬ t.pc.covers h)
    (htk : t.pc.headTicket = none) : Pace order r t g ⟨r, t', g⟩ := by
  refine .stay rfl rfl rfl hcur hb hent ?_ (fun h _ hc => absurd hc (hcov h)) ?_ (fun _ h => h)
  · exact hset.imp id fun ⟨h₁, h₂⟩ => ⟨h₁, rfl, h₂.trans_le (Nat.zero_le _)⟩
  · simp [htk]

/-- The end of the enqueue loop. -/
theorem Pace.next (hcur : t.cursor ≤ r.head) {ptr tail : ℕ}
    (hent : ∀ lim, t.pc.entitled lim = if tail + 1 < lim then 1 else 0)
    (hset : ¬ t.pc.settling) (hcov : ∀ h, ¬ t.pc.covers h) (htk : t.pc.headTicket = none) :
    Pace order r t g ⟨r, enqNext order t ptr tail, g⟩ := by
  unfold enqNext
  split_ifs with hle
  · exact .local hcur trivial (fun lim _ _ => (hent lim).ge) (.inr ⟨hset, rfl⟩) hcov htk
  · refine .local hcur trivial (fun lim h₁ _ => ?_) (.inr ⟨hset, rfl⟩) hcov htk
    rw [hent, if_pos (by omega)]
    exact le_rfl

/-- The test at `retry:`. -/
theorem Pace.retry (hcur : t.cursor ≤ r.head) {ptr tail : ℕ} {pair : Cell}
    (hent : ∀ lim, t.pc.entitled lim = if tail + 1 < lim then 1 else 0)
    (hset : ¬ t.pc.settling) (hcov : ∀ h, ¬ t.pc.covers h) (htk : t.pc.headTicket = none) :
    Pace order r t g ⟨r, enqRetry order t ptr tail pair, g⟩ := by
  unfold enqRetry
  dsimp only
  split_ifs
  · exact .local hcur trivial (fun lim _ _ => (hent lim).ge) (.inr ⟨hset, rfl⟩) hcov htk
  · exact .local hcur trivial (fun lim _ _ => (hent lim).ge) (.inr ⟨hset, rfl⟩) hcov htk
  · exact .next hcur hent hset hcov htk

/-- The loop of the dequeue on the entry it has just read. -/
theorem Pace.check (hcur : t.cursor ≤ r.head) {h : ℕ} (entry : ℕ)
    (hpc : t.pc = .deqLoadEntry h ∨ ∃ e, t.pc = .deqCas h e) (hh : h < r.head) :
    Pace order r t g (deqCheck order r t g h entry) := by
  have hset : ¬ t.pc.settling := by
    rcases hpc with hpc | ⟨e, hpc⟩ <;> simp [hpc, Pc.settling]
  have how : t.pc.owing = 1 := by
    rcases hpc with hpc | ⟨e, hpc⟩ <;> simp [hpc, Pc.owing]
  have hcov (k : ℕ) : t.pc.covers k ↔ h = k := by
    rcases hpc with hpc | ⟨e, hpc⟩ <;> simp [hpc, Pc.covers]
  have htk : t.pc.headTicket = some h := by
    rcases hpc with hpc | ⟨e, hpc⟩ <;> simp [hpc, Pc.headTicket]
  unfold deqCheck
  cases deqVerdict order h entry with
  | take | exchange =>
    exact .stay rfl rfl rfl hcur trivial (fun _ _ _ => Nat.zero_le _) (.inr ⟨hset, rfl, how.ge⟩)
      (fun k _ hk => .inr ((hcov k).mp hk)) (fun k hk => .inr (htk.symm.trans hk))
      (fun _ hk => hk)
  | skip =>
    refine .stay rfl rfl rfl hcur hh (fun _ _ _ => Nat.zero_le _) (.inr ⟨hset, rfl, how.ge⟩)
      (fun k _ hk => .inr ((hcov k).mp hk)) (fun k hk => .inl (.inr ?_)) fun k hk => ?_
    · rw [htk, Option.some.injEq] at hk
      exact hk ▸ List.mem_cons_self
    · exact hk.imp id (List.mem_cons_of_mem _)

/-- One atomic step of one thread. -/
theorem threadStep_pace {sp : Bool} {e : Effect} (hcur : t.cursor ≤ r.head)
    (hb : t.pc.Behind r.head) (hh : ∀ x, t.pc.headTicket = some x → x < r.head)
    (htake : ∀ h, t.pc = .deqTake h → h < r.tail)
    (hcat : ∀ a b, t.pc = .catchupCas a b → a ≤ b)
    (hs : threadStep w order r t g sp = some e) : Pace order r t g e := by
  obtain ⟨pc, cursor, ret⟩ := t
  dsimp only at hcur hb hh htake hcat
  cases pc <;> simp only [threadStep, Option.some.injEq, reduceCtorEq] at hs
  case enqLoadTail ptr =>
    split_ifs at hs with hle <;> cases hs
    · refine .local hcur trivial (fun lim _ h₂ => ?_) (.inr ⟨id, rfl⟩) (fun _ => id) rfl
      exact (if_neg (by omega)).trans_le (Nat.zero_le _)
    · exact .local hcur trivial (fun lim h₁ h₂ => by omega) (.inr ⟨id, rfl⟩) (fun _ => id) rfl
  case enqLoadHead ptr v =>
    split_ifs at hs with hle <;> cases hs
    · exact .local le_rfl trivial (fun _ _ _ => Nat.zero_le _) (.inr ⟨id, rfl⟩) (fun _ => id) rfl
    · refine .local le_rfl trivial (fun lim h₁ _ => ?_) (.inr ⟨id, rfl⟩) (fun _ => id) rfl
      exact (if_pos (by omega)).ge
  case enqReloadHead ptr v =>
    split_ifs at hs with hle <;> cases hs
    · exact .local le_rfl trivial (fun _ _ _ => Nat.zero_le _) (.inr ⟨id, rfl⟩) (fun _ => id) rfl
    · refine .local le_rfl trivial (fun lim h₁ _ => ?_) (.inr ⟨id, rfl⟩) (fun _ => id) rfl
      exact (if_pos (by omega)).ge
  case enqFetchTail ptr =>
    subst hs
    constructor
    · exact le_rfl
    · exact Nat.le_succ _
    · exact hcur
    · trivial
    · constructor
      · intro lim _ h₂
        simp [Thread.at, Pc.entitled, if_neg (show ¬ r.tail + 1 < lim by omega)]
      · intro lim _ h₂ h₃
        have he : r.tail + 1 = lim := le_antisymm h₂ h₃
        exact ⟨he, if_neg (by omega)⟩
    · exact .paid id rfl le_rfl
    · exact .free rfl (fun _ => id) rfl
  case enqLoadCell ptr v =>
    subst hs
    exact .retry hcur (fun _ => rfl) id (fun _ => id) rfl
  case enqCheckHead ptr v pair =>
    split_ifs at hs <;> cases hs
    · exact .local hcur trivial (fun _ _ _ => le_rfl) (.inr ⟨id, rfl⟩) (fun _ => id) rfl
    · exact .next hcur (fun _ => rfl) id (fun _ => id) rfl
  case enqCas ptr v pair =>
    split_ifs at hs <;> cases hs
    · exact .stay rfl rfl rfl hcur trivial (fun _ _ _ => Nat.zero_le _) (.inl trivial)
        (fun _ _ hc => hc.elim) (by simp [Pc.headTicket]) (fun _ hk => hk)
    · exact .retry hcur (fun _ => rfl) id (fun _ => id) rfl
  case enqLoadThreshold =>
    split_ifs at hs with hth <;> cases hs
    · exact .local hcur trivial (fun _ _ _ => le_rfl) (.inl trivial) (fun _ => id) rfl
    · exact ⟨le_rfl, le_rfl, hcur, trivial, .stay rfl fun _ _ _ => le_rfl,
        .settled (not_not.mp hth) rfl rfl, .free rfl (fun _ => id) rfl⟩
  case enqStoreThreshold =>
    subst hs
    exact ⟨le_rfl, le_rfl, hcur, trivial, .stay rfl fun _ _ _ => le_rfl,
      .settled rfl rfl rfl, .free rfl (fun _ => id) rfl⟩
  case deqLoadThreshold =>
    split_ifs at hs <;> cases hs
    · exact .local hcur trivial (fun _ _ _ => Nat.zero_le _) (.inr ⟨id, rfl⟩) (fun _ => id) rfl
    · exact .local hcur trivial (fun _ _ _ => Nat.zero_le _) (.inr ⟨id, rfl⟩) (fun _ => id) rfl
  case deqFetchHead =>
    subst hs
    constructor
    · exact Nat.le_succ _
    · exact le_rfl
    · exact hcur.trans (Nat.le_succ _)
    · trivial
    · exact .stay rfl fun _ _ _ => le_rfl
    · refine .paid id rfl ?_
      simp only [Thread.at, Pc.owing]
      push_cast
      omega
    · refine ⟨fun _ _ hc => hc.elim, fun h h₁ h₂ => ?_, by simp [Pc.headTicket], fun _ hk => hk⟩
      have he : r.head = h := le_antisymm h₁ (Nat.lt_succ_iff.mp h₂)
      exact ⟨he, congrArg some he⟩
  case deqLoadEntry h =>
    subst hs
    exact .check hcur _ (.inl rfl) (hh h rfl)
  case deqTake h =>
    subst hs
    refine .stay rfl rfl rfl hcur trivial (fun _ _ _ => le_rfl) (.inr ⟨id, rfl, Nat.zero_le _⟩)
      ?_ ?_ ?_
    · rintro k _ rfl
      exact .inl (htake _ rfl)
    · rintro k hk
      cases hk
      exact .inl (.inl List.mem_cons_self)
    · exact fun _ hk => hk.imp (List.mem_cons_of_mem _) id
  case deqCas h en =>
    split_ifs at hs <;> cases hs
    · refine .stay rfl rfl rfl hcur (hh h rfl) (fun _ _ _ => le_rfl) (.inr ⟨id, rfl, le_rfl⟩)
        (fun _ _ hk => .inr hk) ?_ ?_
      · rintro k hk
        cases hk
        exact .inl (.inr List.mem_cons_self)
      · exact fun _ hk => hk.imp id (List.mem_cons_of_mem _)
    · exact .check hcur _ (.inr ⟨en, rfl⟩) (hh h rfl)
  case deqLoadTail h =>
    split_ifs at hs with hle <;> cases hs
    · refine .stay rfl rfl rfl hcur hb (fun _ _ _ => le_rfl) (.inr ⟨id, rfl, le_rfl⟩) ?_
        (by simp [Pc.headTicket]) (fun _ hk => hk)
      rintro k _ rfl
      exact .inr (Nat.lt_succ_self _)
    · refine .stay rfl rfl rfl hcur trivial (fun _ _ _ => le_rfl) (.inr ⟨id, rfl, le_rfl⟩) ?_
        (by simp [Pc.headTicket]) (fun _ hk => hk)
      rintro k _ rfl
      exact .inl (by omega)
  case catchupCas a b =>
    split_ifs at hs with hcas <;> cases hs
    · have hab := hcat a b rfl
      have hbh : b ≤ r.head := hb
      have hn := cells_pos order
      constructor
      · exact le_rfl
      · exact hcas.2.le.trans hab
      · exact hcur
      · trivial
      · constructor
        · intro lim h₁ h₂
          omega
        · intro lim h₁ h₂ h₃
          dsimp only at h₃
          omega
      · exact .paid id rfl le_rfl
      · exact ⟨fun _ _ hk => .inl hk, fun h h₁ h₂ => absurd h₂ (not_lt.mpr h₁),
          by simp [Pc.headTicket], fun _ hk => hk⟩
    · refine .stay rfl rfl rfl hcur trivial (fun _ _ _ => le_rfl) (.inr ⟨id, rfl, le_rfl⟩)
        (fun _ _ _ => .inr trivial) (by simp [Pc.headTicket]) (fun _ hk => hk)
  case catchupHead =>
    subst hs
    exact .stay rfl rfl rfl hcur le_rfl (fun _ _ _ => le_rfl) (.inr ⟨id, rfl, le_rfl⟩)
      (fun _ hk _ => .inr hk) (by simp [Pc.headTicket]) (fun _ hk => hk)
  case catchupTail b =>
    split_ifs at hs with hle <;> cases hs
    · exact .stay rfl rfl rfl hcur trivial (fun _ _ _ => le_rfl) (.inr ⟨id, rfl, le_rfl⟩)
        (fun _ _ hk => .inl (hk.trans_le hle)) (by simp [Pc.headTicket]) (fun _ hk => hk)
    · exact .stay rfl rfl rfl hcur hb (fun _ _ _ => le_rfl) (.inr ⟨id, rfl, le_rfl⟩)
        (fun _ _ hk => .inr hk) (by simp [Pc.headTicket]) (fun _ hk => hk)
  case deqSubFail =>
    subst hs
    refine ⟨le_rfl, le_rfl, hcur, trivial, .stay rfl fun _ _ _ => le_rfl, .paid id rfl ?_,
      .free rfl (fun _ => id) rfl⟩
    simp only [Thread.returns, Pc.owing]
    push_cast
    omega
  case deqSub =>
    split_ifs at hs <;> cases hs
    · refine ⟨le_rfl, le_rfl, hcur, trivial, .stay rfl fun _ _ _ => le_rfl, .paid id rfl ?_,
        .free rfl (fun _ => id) rfl⟩
      simp only [Thread.returns, Pc.owing]
      push_cast
      omega
    · refine ⟨le_rfl, le_rfl, hcur, trivial, .stay rfl fun _ _ _ => le_rfl, .paid id rfl ?_,
        .free rfl (fun _ => id) rfl⟩
      simp only [Thread.at, Pc.owing]
      push_cast
      omega

section System

variable {ι : Type*} [DecidableEq ι]

/-- What every finished dequeue leaves behind it. -/
structure Caught (order : ℕ) (s : State ι) : Prop where
  cursor (i : ι) : (s.thread i).cursor ≤ s.ring.head
  behind (i : ι) : (s.thread i).pc.Behind s.ring.head
  covered : ∀ h < s.ring.head, h < s.ring.tail ∨ ∃ i, (s.thread i).pc.covers h
  spent : ∀ h, cells order ≤ h → h < s.ring.head →
    s.trace.gone h ∨ ∃ i, (s.thread i).pc.headTicket = some h

omit [DecidableEq ι] in
theorem initial_caught (ι : Type*) (order : ℕ) : Caught order (initial ι order) where
  cursor := fun _ => le_rfl
  behind := fun _ => trivial
  covered := fun _ hh => .inl hh
  spent := fun _ h₁ h₂ => absurd h₂ (not_lt.mpr h₁)

/-- The step of the thread `i`, as the distances see it. -/
theorem step_pace {s s' : State ι} {i : ι} {a : Act} (hi : Inv w order s) (hc : Caught order s)
    (hs : step w order s (i, a) = some s') :
    ∃ e, Pace order s.ring (s.thread i) s.trace e ∧
      s' = ⟨e.ring, Function.update s.thread i e.thread, e.trace⟩ := by
  have hcall {pc : Pc} (hpc : (s.thread i).pc = .idle) (hb : pc.Behind s.ring.head = True)
      (hent : ∀ lim, pc.entitled lim = 0) (how : pc.owing = 0) :
      Pace order s.ring (s.thread i) s.trace ⟨s.ring, (s.thread i).at pc, s.trace⟩ :=
    .local (hc.cursor i) (of_eq_true hb) (fun lim _ _ => (hent lim).trans_le (Nat.zero_le _))
      (.inr ⟨by simp [hpc, Pc.settling], how⟩) (by simp [hpc, Pc.covers])
      (by simp [hpc, Pc.headTicket])
  have hrun {sp : Bool} {e : Effect}
      (he : threadStep w order s.ring (s.thread i) s.trace sp = some e) :
      Pace order s.ring (s.thread i) s.trace e := by
    refine threadStep_pace (hc.cursor i) (hc.behind i)
      (fun x hx => (hi.head.range i x hx).2.1) (fun h hpc => ?_) (fun x y hpc => ?_) he
    · have hok := hi.ok i
      rw [hpc] at hok
      obtain ⟨x, hx, rfl⟩ := List.mem_map.mp hok
      exact (hi.core.stored_range x hx).2
    · have hok := hi.ok i
      rw [hpc] at hok
      exact hok
  cases a with
  | enqueue ptr =>
    simp only [step] at hs
    split_ifs at hs with hpc
    cases hs
    exact ⟨_, hcall hpc rfl (fun _ => rfl) rfl, rfl⟩
  | dequeue =>
    simp only [step] at hs
    split_ifs at hs with hpc
    cases hs
    exact ⟨_, hcall hpc rfl (fun _ => rfl) rfl, rfl⟩
  | go | spurious =>
    obtain ⟨e, he, rfl⟩ := Option.map_eq_some_iff.mp hs
    exact ⟨e, hrun he, rfl⟩

theorem Caught.pace {s : State ι} {i : ι} {e : Effect} (hc : Caught order s)
    (hp : Pace order s.ring (s.thread i) s.trace e) :
    Caught order ⟨e.ring, Function.update s.thread i e.thread, e.trace⟩ := by
  have hwho {P : Thread → Prop} {Q : Prop} (h : Q ∨ ∃ j, P (s.thread j))
      (hi : P (s.thread i) → Q ∨ P e.thread) :
      Q ∨ ∃ j, P (Function.update s.thread i e.thread j) := by
    rcases h with h | ⟨j, hj⟩
    · exact .inl h
    · by_cases hji : j = i
      · subst hji
        exact (hi hj).imp id fun h => ⟨j, by simpa using h⟩
      · exact .inr ⟨j, by simpa [hji] using hj⟩
  refine ⟨fun j => ?_, fun j => ?_, fun h hh => ?_, fun h h₁ h₂ => ?_⟩
  · by_cases hji : j = i
    · subst hji
      simpa using hp.cursor
    · simpa [hji] using (hc.cursor j).trans hp.head_le
  · by_cases hji : j = i
    · subst hji
      simpa using hp.behind
    · simpa [hji] using (hc.behind j).mono hp.head_le
  · by_cases hold : h < s.ring.head
    · exact hwho (P := fun t => t.pc.covers h) ((hc.covered h hold).imp (·.trans_le hp.tail_le) id)
        (hp.covered.old h hold)
    · exact .inr ⟨i, by simpa using (hp.covered.new h (not_lt.mp hold) hh).1⟩
  · by_cases hold : h < s.ring.head
    · exact hwho (P := fun t => t.pc.headTicket = some h)
        ((hc.spent h h₁ hold).imp (hp.covered.gone h) id) (hp.covered.held h)
    · exact .inr ⟨i, by simpa using (hp.covered.new h (not_lt.mp hold) h₂).2⟩

theorem reachable_caught (hw : w.minOrder ≤ order) {s : State ι} (h : Reachable w order s) :
    Inv w order s ∧ Caught order s := by
  refine h.invariant (I := fun s => Inv w order s ∧ Caught order s) ?_ ?_
  · rintro _ rfl
    exact ⟨initial_inv ι, initial_caught ι order⟩
  · rintro s ⟨i, a⟩ s' ⟨hi, hc⟩ hs
    refine ⟨step_inv hw hi hs, ?_⟩
    obtain ⟨e, he, rfl⟩ := step_pace hi hc hs
    exact hc.pace he

variable [Fintype ι]

/-- The tail is less than a ring and the threads ahead of the head, and while no enqueue is
about to set it the threshold outlasts the dequeues on their way to a stored ticket. -/
structure Paced (order : ℕ) (s : State ι) : Prop where
  window : ∀ lim, s.ring.head + cells order ≤ lim → lim ≤ s.ring.tail →
    s.ring.tail + total (fun t => t.pc.entitled lim) s.thread < lim + Fintype.card ι
  quota : (∃ i, (s.thread i).pc.settling) ∨ ∀ x ∈ s.trace.stored, s.ring.head ≤ x.1 →
    (x.1 : ℤ) + total (fun t => t.pc.owing) s.thread ≤ s.ring.threshold + s.ring.head

omit [DecidableEq ι] in
theorem initial_paced (order : ℕ) : Paced order (initial ι order) where
  window := fun lim h₁ h₂ => by
    have hn := cells_pos order
    have h₃ : lim ≤ cells order := h₂
    have h₄ : cells order + cells order ≤ lim := h₁
    omega
  quota := .inr fun x hx => by simp [initial] at hx

omit [DecidableEq ι] in
/-- Stored tickets are close enough to the head for the threshold at its maximum. -/
theorem Paced.room {s : State ι} (hcard : Fintype.card ι ≤ 2 ^ order) (hi : Inv w order s)
    (h : Paced order s) {x : ℕ × ℕ} (hx : x ∈ s.trace.stored) :
    (x.1 : ℤ) + Fintype.card ι ≤ threshold4 order + s.ring.head := by
  have hn : cells order = 2 * 2 ^ order := by
    rw [cells_eq_two_pow, pow_succ, Nat.mul_comm]
  have hlt := (hi.core.stored_range x hx).2
  have htail : s.ring.tail < s.ring.head + cells order + Fintype.card ι ∨
      s.ring.tail < s.ring.head + cells order := by
    by_cases hfar : s.ring.head + cells order ≤ s.ring.tail
    · have hwin := h.window _ le_rfl hfar
      omega
    · omega
  unfold threshold4
  omega

theorem Paced.pace {s : State ι} {i : ι} {e : Effect} (hcard : Fintype.card ι ≤ 2 ^ order)
    (hi : Inv w order s) (h : Paced order s) (hp : Pace order s.ring (s.thread i) s.trace e) :
    Paced order ⟨e.ring, Function.update s.thread i e.thread, e.trace⟩ := by
  constructor
  · intro lim h₁ h₂
    dsimp only at h₁ h₂ ⊢
    have hlim : s.ring.head + cells order ≤ lim := by
      have := hp.head_le
      omega
    rw [total_update]
    rcases lt_or_ge s.ring.tail lim with hlt | hge
    · obtain ⟨he, hz⟩ := hp.window.crossing lim hlim hlt h₂
      have ho := others_lt_card (f := s.thread) (w := fun t => t.pc.entitled lim)
        (fun j => (s.thread j).pc.entitled_le_one lim) i
      omega
    · have hb := hp.window.below lim hlim hge
      have ho := h.window lim hlim hge
      rw [total_eq _ _ i] at ho
      omega
  · dsimp only
    rcases hp.quota with hset | ⟨hth, hhead, hst⟩ | ⟨hset, hst, hpay⟩
    · exact .inl ⟨i, by simpa using hset⟩
    · right
      intro x hx _
      have hroom := h.room hcard hi (hst ▸ hx)
      have howe := total_le_card (f := Function.update s.thread i e.thread)
        (w := fun t => t.pc.owing) fun j => Pc.owing_le_one _
      rw [hth, hhead]
      omega
    · rcases h.quota with ⟨j, hj⟩ | hq
      · left
        refine ⟨j, ?_⟩
        have hji : j ≠ i := by
          rintro rfl
          exact hset hj
        simpa [hji] using hj
      · right
        intro x hx hge
        have hold := hq x (hst ▸ hx) (hp.head_le.trans hge)
        rw [total_eq _ _ i] at hold
        rw [total_update]
        push_cast at hold ⊢
        omega

theorem reachable_paced (hw : w.minOrder ≤ order) (hcard : Fintype.card ι ≤ 2 ^ order)
    {s : State ι} (h : Reachable w order s) : Paced order s := by
  have hall : (Inv w order s ∧ Caught order s) ∧ Paced order s := by
    refine h.invariant (I := fun s => (Inv w order s ∧ Caught order s) ∧ Paced order s) ?_ ?_
    · rintro _ rfl
      exact ⟨⟨initial_inv ι, initial_caught ι order⟩, initial_paced order⟩
    · rintro s ⟨i, a⟩ s' ⟨⟨hi, hc⟩, hp⟩ hs
      have hi' := step_inv hw hi hs
      obtain ⟨e, he, rfl⟩ := step_pace hi hc hs
      exact ⟨⟨hi', hc.pace he⟩, hp.pace hcard hi he⟩
  exact hall.2

end System

end Libevl.RingPtr
