import Libevl.RingPtrInvariant

/-!
# Every stored pointer is taken once, by the dequeue of its ticket

Each atomic step keeps the invariant of the tickets, whatever the number of
threads and the size of the ring.
-/
namespace Libevl.RingPtr
open Transition

variable {w : WordSize} {order : ℕ} {r : Ring} {g : Trace}

theorem minOrder_pos (w : WordSize) : 0 < w.minOrder := by
  cases w <;> decide

theorem cycle_pos {x : ℕ} (h : cells order ≤ x) : 0 < cycle order x := by
  have hx := cycle_add order x
  have hlt := Nat.mod_lt x (cells_pos order)
  omega

/-- Going on with the loop of the enqueue gives the tail ticket up. -/
theorem enqNext_free (order : ℕ) (t : Thread) (ptr tail : ℕ) :
    (enqNext order t ptr tail).pc.tailTicket = none ∧
      (enqNext order t ptr tail).pc.headTicket = none ∧
      (enqNext order t ptr tail).pc.Ok w order r g := by
  unfold enqNext
  split_ifs
  · exact ⟨rfl, rfl, trivial⟩
  · exact ⟨rfl, rfl, trivial⟩

theorem Core.next (c : Core w order r g) (t : Thread) (ptr tail : ℕ) (pc : Pc) :
    Advance w order r g pc r g (enqNext order t ptr tail).pc := by
  obtain ⟨h₁, h₂, h₃⟩ := enqNext_free (w := w) (r := r) (g := g) order t ptr tail
  exact c.local rfl le_rfl le_rfl h₃ h₁ h₂

/-- The test at `retry:` admits free cells of an older cycle only. -/
theorem Core.retry (c : Core w order r g) (ho : 0 < order) (t : Thread) (ptr tail : ℕ) {pc : Pc}
    (hpc : pc.tailTicket = some tail) :
    Advance w order r g pc r g
      (enqRetry order t ptr tail (r.array (ringMap w order tail))).pc := by
  unfold enqRetry
  dsimp only
  split_ifs with hclean hmark
  · obtain ⟨hlt, he⟩ := hclean
    obtain ⟨hfree, hunmarked⟩ := entry_clean ho he
    refine c.quiet rfl le_rfl le_rfl ⟨⟨hfree, hlt, .inl rfl⟩, ?_⟩ ?_ ?_
    · intro _ h hh hm
      rcases c.passed h hh with hle | hmk
      · exact (hm ▸ hle).trans_lt hlt
      · exact absurd (hm ▸ hmk) hunmarked
    · intro x hx
      exact .inl (hpc.trans hx)
    · simp [Thread.at, Pc.headTicket]
  · obtain ⟨hlt, he⟩ := hmark
    refine c.quiet rfl le_rfl le_rfl ⟨entry_dropped ho he, hlt, .inl rfl⟩ ?_ ?_
    · intro x hx
      exact .inl (hpc.trans hx)
    · simp [Thread.at, Pc.headTicket]
  · exact c.next t ptr tail pc

/-- When the dequeue takes, gives up or goes on to the exchange. -/
theorem deqVerdict_cases (ho : 0 < order) {e : ℕ} (he : e % cells order < 4) (h : ℕ) :
    deqVerdict order h e = .take ∧ cycle order e = cycle order h ∨
    deqVerdict order h e = .skip ∧ cycle order e ≠ cycle order h ∧
      (occupied e ∧ marked e ∨ cycle order h ≤ cycle order e) ∨
    deqVerdict order h e = .exchange ∧ cycle order e < cycle order h ∧
      ¬ (occupied e ∧ marked e) := by
  rw [← andNot_two_ne ho he, ← eq_or_two e]
  unfold deqVerdict
  split_ifs with h₁ h₂ h₃
  · exact .inl ⟨rfl, h₁⟩
  · exact .inr (.inl ⟨rfl, h₁, .inl h₂⟩)
  · exact .inr (.inr ⟨rfl, h₃, h₂⟩)
  · exact .inr (.inl ⟨rfl, h₁, .inr (not_lt.mp h₃)⟩)

/-- A cell with the cycle of a head ticket that is still due holds its pointer. -/
theorem Core.stored_of_cycle (c : Core w order r g) (hw : w.minOrder ≤ order) {h : ℕ}
    (hr : cells order ≤ h) (hg : ¬ g.gone h)
    (hc : cycle order (r.array (ringMap w order h)).entry = cycle order h) :
    h ∈ g.stored.map Prod.fst := by
  by_cases hocc : occupied (r.array (ringMap w order h)).entry
  · obtain ⟨x, hx, -, hm, hcx⟩ := c.busy _ hocc
    have hxh : x.1 = h := ticket_inj hw hm (hcx.trans hc)
    exact hxh ▸ List.mem_map_of_mem hx
  · obtain ⟨k, hk, hm, hck⟩ := c.idle _ hocc (hc ▸ cycle_pos hr)
    have hkh : k = h := ticket_inj hw hm (hck.trans hc)
    exact absurd (hkh ▸ hk) hg

/-- The loop of the dequeue on the entry it has just read. -/
theorem Core.check (c : Core w order r g) (hw : w.minOrder ≤ order) (ho : 0 < order) (t : Thread)
    {pc : Pc} {h : ℕ} (hpc : pc.headTicket = some h) (hr : cells order ≤ h ∧ h < r.head)
    (hg : ¬ g.gone h) :
    Advance w order r g pc r
      (deqCheck order r t g h (r.array (ringMap w order h)).entry).trace
      (deqCheck order r t g h (r.array (ringMap w order h)).entry).thread.pc ∧
    (deqCheck order r t g h (r.array (ringMap w order h)).entry).ring = r := by
  unfold deqCheck
  rcases deqVerdict_cases ho (c.low (ringMap w order h)) h with
    ⟨hv, hc⟩ | ⟨hv, hne, hp⟩ | ⟨hv, hlt, hp⟩ <;> rw [hv]
  · refine ⟨c.quiet rfl le_rfl le_rfl (c.stored_of_cycle hw hr.1 hg hc) ?_ ?_, rfl⟩
    · simp [Thread.at, Pc.tailTicket]
    · intro x hx
      exact .inl (hpc.trans hx)
  · refine ⟨?_, rfl⟩
    constructor
    · exact c.skip hr hg hne (hp.symm.imp id And.right)
    · refine ⟨fun _ => .inl rfl, le_rfl, le_rfl, fun _ hx => hx, fun k hk => ?_⟩
      rcases List.mem_cons.mp hk with rfl | hk
      · exact .inr (hp.imp And.left id)
      · exact .inl hk
    · trivial
    · exact fun _ hx => .inl hx
    · simp [Thread.at, Pc.tailTicket]
    · rintro k (hk | hk)
      · exact .inl (.inl hk)
      · rcases List.mem_cons.mp hk with rfl | hk
        · exact .inr ⟨hpc, rfl⟩
        · exact .inl (.inr hk)
    · simp [Thread.at, Pc.headTicket]
  · refine ⟨c.quiet rfl le_rfl le_rfl ⟨hlt, hp⟩ ?_ ?_, rfl⟩
    · simp [Thread.at, Pc.tailTicket]
    · intro x hx
      exact .inl (hpc.trans hx)

/-- A store on the cell that was read. -/
theorem Core.enqueued (c : Core w order r g) (ho : 0 < order) {ptr tail : ℕ} {pair : Cell}
    (hok : (Pc.enqCas ptr tail pair).Ok w order r g)
    (hr : cells order ≤ tail ∧ tail < r.tail ∧ tail ∉ g.stored.map Prod.fst)
    (he : r.array (ringMap w order tail) = pair) :
    Advance w order r g (.enqCas ptr tail pair)
      (r.set (ringMap w order tail) ⟨cycle order tail ||| 0x1, ptr⟩)
      { g with stored := (tail, ptr) :: g.stored } .enqLoadThreshold := by
  obtain ⟨hold, hkeep⟩ := hok
  constructor
  · exact c.store ho ptr ⟨hr.1, hr.2.1⟩ hr.2.2 (he ▸ hold.free) (hkeep he)
  · refine ⟨fun i => ?_, le_rfl, le_rfl, List.subset_cons_self .., fun k hk => .inl hk⟩
    by_cases hi : i = ringMap w order tail
    · subst hi
      right
      left
      rw [Ring.set_self, (entry_stored ho tail).cycle, he]
      exact hold.lt
    · exact .inl (Ring.set_of_ne r _ hi)
  · trivial
  · intro x hx
    rcases List.mem_cons.mp hx with rfl | hx
    · exact .inr ⟨rfl, rfl⟩
    · exact .inl hx
  · simp [Pc.tailTicket]
  · exact fun k hk => .inl hk
  · simp [Pc.headTicket]

/-- The fetch-and that takes the pointer. -/
theorem Core.dequeued (c : Core w order r g) (hw : w.minOrder ≤ order) (ho : 0 < order) {h : ℕ}
    (hs : h ∈ g.stored.map Prod.fst) (hr : cells order ≤ h ∧ h < r.head ∧ ¬ g.gone h) :
    Advance w order r g (.deqTake h)
      (r.set (ringMap w order h) ⟨andNot (r.array (ringMap w order h)).entry 0x1, 0⟩)
      { g with taken := (h, (r.array (ringMap w order h)).ptr) :: g.taken } .idle := by
  obtain ⟨x, -, rfl, -, hx⟩ := c.kept_of_mem hs hr.2.2
  constructor
  · exact (c.take hw ho ⟨hr.1, hr.2.1⟩ hr.2.2 hs).2
  · refine ⟨fun i => ?_, le_rfl, le_rfl, fun _ hx => hx, fun k hk => .inl hk⟩
    by_cases hi : i = ringMap w order x.1
    · subst hi
      right
      right
      rw [Ring.set_self]
      exact ⟨hx.occ, (entry_taken ho (c.low _)).cycle⟩
    · exact .inl (Ring.set_of_ne r _ hi)
  · trivial
  · exact fun _ hx => .inl hx
  · simp [Pc.tailTicket]
  · rintro k (hk | hk)
    · rcases List.mem_cons.mp hk with rfl | hk
      · exact .inr ⟨rfl, rfl⟩
      · exact .inl (.inl hk)
    · exact .inl (.inr hk)
  · simp [Pc.headTicket]

/-- The exchange by which a dequeue gives its ticket up. -/
theorem Core.exchanged (c : Core w order r g) (ho : 0 < order) {h e : ℕ}
    (hok : (Pc.deqCas h e).Ok w order r g) (hr : cells order ≤ h ∧ h < r.head ∧ ¬ g.gone h)
    (he : (r.array (ringMap w order h)).entry = e) :
    Advance w order r g (.deqCas h e)
      (r.set (ringMap w order h) ⟨entryNew order h e, (r.array (ringMap w order h)).ptr⟩)
      { g with skipped := h :: g.skipped } (.deqLoadTail h) := by
  obtain ⟨hlt, hmk⟩ := hok
  subst he
  have hlow := c.low (ringMap w order h)
  have hgone (k : ℕ) (hk : Trace.gone { g with skipped := h :: g.skipped } k) :
      g.gone k ∨ (Pc.deqCas h (r.array (ringMap w order h)).entry).headTicket = some k ∧
        (Pc.deqLoadTail h).headTicket = none := by
    rcases hk with hk | hk
    · exact .inl (.inl hk)
    · rcases List.mem_cons.mp hk with rfl | hk
      · exact .inr ⟨rfl, rfl⟩
      · exact .inl (.inr hk)
  unfold entryNew
  by_cases hocc : occupied (r.array (ringMap w order h)).entry
  · have hunmarked : ¬ marked (r.array (ringMap w order h)).entry := fun hm => hmk ⟨hocc, hm⟩
    obtain ⟨ec, -, eo, em⟩ := entry_mark ho hlow hunmarked
    rw [if_pos ((andNot_two_ne ho hlow).mpr hocc)]
    refine ⟨?_, ?_, trivial, fun _ hx => .inl hx, by simp [Pc.tailTicket], hgone,
      by simp [Pc.headTicket]⟩
    · refine (c.mark ho hunmarked).skip ⟨hr.1, hr.2.1⟩ hr.2.2 ?_ (.inr ?_)
      · rw [Ring.set_self, ec]
        exact hlt.ne
      · rw [Ring.set_self]
        exact em.mpr trivial
    · refine ⟨fun i => ?_, le_rfl, le_rfl, fun _ hx => hx, fun k hk => ?_⟩
      · by_cases hi : i = ringMap w order h
        · subst hi
          right
          right
          rw [Ring.set_self]
          exact ⟨hocc, ec⟩
        · exact .inl (Ring.set_of_ne r _ hi)
      · rcases List.mem_cons.mp hk with rfl | hk
        · right
          left
          rw [Ring.set_self]
          exact eo.mpr hocc
        · exact .inl hk
  · obtain ⟨ec, -, eo, em⟩ := entry_passed ho h (r.array (ringMap w order h)).entry
    rw [if_neg (mt (andNot_two_ne ho hlow).mp hocc)]
    refine ⟨c.pass ho ⟨hr.1, hr.2.1⟩ hr.2.2 hocc hlt, ?_, trivial, fun _ hx => .inl hx,
      by simp [Pc.tailTicket], hgone, by simp [Pc.headTicket]⟩
    refine ⟨fun i => ?_, le_rfl, le_rfl, fun _ hx => hx, fun k hk => ?_⟩
    · by_cases hi : i = ringMap w order h
      · subst hi
        right
        left
        rw [Ring.set_self, ec]
        exact hlt
      · exact .inl (Ring.set_of_ne r _ hi)
    · rcases List.mem_cons.mp hk with rfl | hk
      · right
        right
        rw [Ring.set_self, ec]
      · exact .inl hk

/-- One atomic step of one thread. -/
theorem threadStep_advance (hw : w.minOrder ≤ order) {t : Thread} {sp : Bool} {e : Effect}
    (c : Core w order r g) (hok : t.pc.Ok w order r g)
    (htail : ∀ x, t.pc.tailTicket = some x →
      cells order ≤ x ∧ x < r.tail ∧ x ∉ g.stored.map Prod.fst)
    (hhead : ∀ x, t.pc.headTicket = some x → cells order ≤ x ∧ x < r.head ∧ ¬ g.gone x)
    (hs : threadStep w order r t g sp = some e) :
    Advance w order r g t.pc e.ring e.trace e.thread.pc := by
  have ho : 0 < order := (minOrder_pos w).trans_le hw
  obtain ⟨pc, cursor, ret⟩ := t
  dsimp only at hok htail hhead ⊢
  cases pc <;> simp only [threadStep, Option.some.injEq, reduceCtorEq] at hs
  case enqLoadTail | enqLoadHead | enqLoadThreshold | enqReloadHead | deqLoadThreshold =>
    split_ifs at hs <;> cases hs <;> exact c.local rfl le_rfl le_rfl trivial rfl rfl
  case enqFetchTail ptr =>
    subst hs
    refine c.quiet rfl le_rfl (Nat.le_succ _) trivial ?_ (by simp [Thread.at, Pc.headTicket])
    simp [Thread.at, Pc.tailTicket]
  case enqLoadCell ptr tail =>
    subst hs
    exact c.retry ho _ ptr tail rfl
  case enqCheckHead ptr tail pair =>
    split_ifs at hs with hle
    · cases hs
      refine c.quiet rfl le_rfl le_rfl ⟨hok, fun _ k hk hm => ?_⟩ (fun x hx => .inl hx)
        (by simp [Thread.at, Pc.headTicket])
      have hlt := (c.gone_range k (.inr hk)).2
      have hcy := cycle_le_cycle order (show k ≤ tail by omega)
      have hne : cycle order k ≠ cycle order tail := by
        intro he
        have hkt := ticket_inj hw hm he
        omega
      omega
    · cases hs
      exact c.next _ ptr tail _
  case enqCas ptr tail pair =>
    split_ifs at hs with hcas
    · cases hs
      exact c.enqueued ho hok (htail tail rfl) hcas.2
    · cases hs
      exact c.retry ho _ ptr tail rfl
  case enqStoreThreshold =>
    subst hs
    exact c.local rfl le_rfl le_rfl trivial rfl rfl
  case deqFetchHead =>
    subst hs
    refine c.quiet rfl (Nat.le_succ _) le_rfl trivial (by simp [Thread.at, Pc.tailTicket]) ?_
    simp [Thread.at, Pc.headTicket]
  case deqLoadEntry h =>
    subst hs
    obtain ⟨h₁, h₂, h₃⟩ := hhead h rfl
    have hpc : (Pc.deqLoadEntry h).headTicket = some h := rfl
    obtain ⟨ha, hr⟩ := c.check hw ho ⟨.deqLoadEntry h, cursor, ret⟩ hpc ⟨h₁, h₂⟩ h₃
    rw [hr]
    exact ha
  case deqTake h =>
    subst hs
    exact c.dequeued hw ho hok (hhead h rfl)
  case deqCas h en =>
    split_ifs at hs with hcas
    · cases hs
      exact c.exchanged ho hok (hhead h rfl) hcas.2
    · cases hs
      obtain ⟨h₁, h₂, h₃⟩ := hhead h rfl
      have hpc : (Pc.deqCas h en).headTicket = some h := rfl
      obtain ⟨ha, hr⟩ := c.check hw ho ⟨.deqCas h en, cursor, ret⟩ hpc ⟨h₁, h₂⟩ h₃
      rw [hr]
      exact ha
  case deqLoadTail h =>
    split_ifs at hs with hle
    · cases hs
      exact c.local rfl le_rfl le_rfl hle rfl rfl
    · cases hs
      exact c.local rfl le_rfl le_rfl trivial rfl rfl
  case catchupCas tail head =>
    split_ifs at hs with hcas
    · cases hs
      exact c.local rfl le_rfl (hcas.2.le.trans hok) trivial rfl rfl
    · cases hs
      exact c.local rfl le_rfl le_rfl trivial rfl rfl
  case catchupHead =>
    subst hs
    exact c.local rfl le_rfl le_rfl trivial rfl rfl
  case catchupTail head =>
    split_ifs at hs with hle
    · cases hs
      exact c.local rfl le_rfl le_rfl trivial rfl rfl
    · cases hs
      exact c.local rfl le_rfl le_rfl (not_le.mp hle).le rfl rfl
  case deqSubFail =>
    subst hs
    exact c.local rfl le_rfl le_rfl trivial rfl rfl
  case deqSub =>
    split_ifs at hs <;> cases hs <;> exact c.local rfl le_rfl le_rfl trivial rfl rfl

variable {ι : Type*} [DecidableEq ι]

theorem step_inv (hw : w.minOrder ≤ order) {s s' : State ι} {l : ι × Act}
    (h : Inv w order s) (hs : step w order s l = some s') : Inv w order s' := by
  obtain ⟨i, act⟩ := l
  have hcall {pc : Pc} (hok : pc.Ok w order s.ring s.trace) (h₁ : pc.tailTicket = none)
      (h₂ : pc.headTicket = none) :
      Inv w order { s with thread := Function.update s.thread i ((s.thread i).at pc) } :=
    h.advance (h.core.local rfl le_rfl le_rfl hok h₁ h₂)
  have hrun {sp : Bool} {e : Effect}
      (he : threadStep w order s.ring (s.thread i) s.trace sp = some e) :
      Inv w order ⟨e.ring, Function.update s.thread i e.thread, e.trace⟩ :=
    h.advance (threadStep_advance hw h.core (h.ok i) (h.tail.range i) (h.head.range i) he)
  cases act with
  | enqueue ptr =>
    simp only [step] at hs
    split_ifs at hs
    cases hs
    exact hcall trivial rfl rfl
  | dequeue =>
    simp only [step] at hs
    split_ifs at hs
    cases hs
    exact hcall trivial rfl rfl
  | go | spurious =>
    obtain ⟨e, he, rfl⟩ := Option.map_eq_some_iff.mp hs
    exact hrun he

theorem reachable_inv (hw : w.minOrder ≤ order) {s : State ι} (h : Reachable w order s) :
    Inv w order s := by
  refine h.invariant ?_ fun s l s' hi hs => step_inv hw hi hs
  rintro _ rfl
  exact initial_inv ι

/-- Nothing is lost, duplicated or reordered. A dequeue about to return has the pointer of the
enqueue with its own ticket, and is the first to return it; a stored pointer stays in its cell
until it is taken; a ticket that was stored is not skipped. -/
structure Faithful (w : WordSize) (order : ℕ) (s : State ι) : Prop where
  one_enqueue : (s.trace.stored.map Prod.fst).Nodup
  same_pointer : ∀ x ∈ s.trace.taken, x ∈ s.trace.stored
  taken_once : (s.trace.taken.map Prod.fst).Nodup
  returns (i : ι) (h : ℕ) : (s.thread i).pc = .deqTake h →
    (h, (s.ring.array (ringMap w order h)).ptr) ∈ s.trace.stored ∧
      h ∉ s.trace.taken.map Prod.fst
  not_overwritten : ∀ x ∈ s.trace.stored, x ∉ s.trace.taken → Kept w order s.ring x
  not_skipped : ∀ x ∈ s.trace.stored, x.1 ∉ s.trace.skipped

end Libevl.RingPtr
