import Libevl.SemSafety

/-!
# Pollers of the semaphore

The kernel counts the pollers of a semaphore in `pollrefs`, then reads the value for
them, and puts them to sleep unless it is positive. A put looks for pollers before
and after it raises the value, and sends a `SIGNAL` request if there are any. Puts
are told apart by how often the value was raised before them.
-/
namespace Libevl.Sem
open Transition

/-- Where a poller stands in the kernel. -/
inductive PollPc
  | idle | registered | read | asleep
  deriving DecidableEq, Repr

/-- A poller: the value it has read, how often that had been raised, and whether a `SIGNAL`
request was served since it registered or was last woken up. -/
structure Poller where
  pc : PollPc
  val : ℤ
  seen : ℕ
  signalled : Bool
  deriving DecidableEq, Repr

/-- A `SIGNAL` request reaches every poller that is registered. -/
def Poller.notify (p : Poller) : Poller := if p.pc = .idle then p else { p with signalled := true }

/-- A semaphore and its pollers. `rank i` is the number of the put which the thread `i` is about to
end, and `posted` has the numbers of the puts that are completed. -/
structure PollState (ι κ : Type*) where
  sem : State ι
  poller : κ → Poller
  rank : ι → ℕ
  posted : List ℕ

def Act.signals {ι : Type*} : Act ι → Bool
  | .signal _ => true
  | .call _ _ => false
  | .go => false
  | .spurious => false
  | .timeout => false

variable {ι κ : Type*} [Fintype ι] [DecidableEq ι]

/-- The numbers and the pollers after a step of the thread `i`. -/
def PollState.track (s : PollState ι κ) (i : ι) (signals : Bool) (sem : State ι) :
    PollState ι κ :=
  let rank := if (s.sem.thread i).raised < (sem.thread i).raised then
    Function.update s.rank i (raised s.sem) else s.rank
  { sem := sem
    poller := fun k => if signals then (s.poller k).notify else s.poller k
    rank := rank
    posted := if (s.sem.thread i).puts < (sem.thread i).puts then rank i :: s.posted
      else s.posted }

section Threads

variable {e : Event} {t : Thread} {s s' : State ι} {i j : ι} {a : Act ι}

/-- What a step of the thread `i` does to its raises and puts, to the references and to the value. -/
structure Tracked (s : State ι) (i : ι) (signals : Bool) (s' : State ι) : Prop where
  refs : s'.event.pollrefs = s.event.pollrefs
  other : ∀ j, j ≠ i → (s'.thread j).raised = (s.thread j).raised ∧
    (s'.thread j).puts = (s.thread j).puts
  raises : (s'.thread i).raised = (s.thread i).raised ∨
    (s'.thread i).raised = (s.thread i).raised + 1 ∧ (s.thread i).raised = (s.thread i).puts
  posts : (s'.thread i).puts = (s.thread i).puts ∨ (s'.thread i).puts = (s.thread i).puts + 1 ∧
    (signals = true ∨ s.event.pollrefs = 0)
  value : signals = true ∨ (s'.thread i).raised = (s.thread i).raised + 1 ∨
    (s.event.value ≤ 0 → s'.event.value ≤ 0)

theorem total_of_others {w : Thread → ℕ} {f g : ι → Thread} (h : ∀ j, j ≠ i → w (f j) = w (g j)) :
    total w f + w (g i) = total w g + w (f i) := by
  have hothers : others w f i = others w g i :=
    Finset.sum_congr rfl fun j hj => h j (Finset.ne_of_mem_erase hj)
  rw [total_eq _ _ i, total_eq _ g i, hothers]
  omega

theorem Tracked.raised_eq {signals : Bool} (h : Tracked s i signals s') :
    raised s' + (s.thread i).raised = raised s + (s'.thread i).raised :=
  total_of_others fun j hj => (h.other j hj).1

end Threads

section Numbers

variable {s : PollState ι κ} {i : ι} {signals : Bool} {sem : State ι} {r : ℕ} {initval : ℤ}

/-- Every raise belongs to a put that is completed, or to the put in progress of a thread. -/
structure Numbered (s : PollState ι κ) : Prop where
  ranks : ∀ r, r < raised s.sem → r ∈ s.posted ∨
    ∃ i, (s.sem.thread i).puts < (s.sem.thread i).raised ∧ s.rank i = r
  posted : ∀ r ∈ s.posted, r < raised s.sem
  rank : ∀ i, (s.sem.thread i).puts < (s.sem.thread i).raised → s.rank i < raised s.sem
  count : s.posted.length = total Thread.puts s.sem.thread

theorem track_rank_same (h : (sem.thread i).raised = (s.sem.thread i).raised) :
    (s.track i signals sem).rank = s.rank := if_neg (by omega)

theorem track_rank_raised (h : (sem.thread i).raised = (s.sem.thread i).raised + 1) :
    (s.track i signals sem).rank = Function.update s.rank i (raised s.sem) := if_pos (by omega)

theorem track_posted_same (h : (sem.thread i).puts = (s.sem.thread i).puts) :
    (s.track i signals sem).posted = s.posted := if_neg (by omega)

theorem track_posted_put (h : (sem.thread i).puts = (s.sem.thread i).puts + 1) :
    (s.track i signals sem).posted = (s.track i signals sem).rank i :: s.posted := if_pos (by omega)

theorem mem_track (ht : Tracked s.sem i signals sem) (h : r ∈ s.posted) :
    r ∈ (s.track i signals sem).posted := by
  rcases ht.posts with hp | ⟨hp, -⟩
  · rw [track_posted_same hp]
    exact h
  · rw [track_posted_put hp]
    exact List.mem_cons_of_mem _ h

/-- The put in progress of the thread that moves goes on, or is completed. -/
theorem track_self (ht : Tracked s.sem i signals sem)
    (hopen : (s.sem.thread i).puts < (sem.thread i).raised) :
    (s.track i signals sem).rank i ∈ (s.track i signals sem).posted ∨
      (sem.thread i).puts < (sem.thread i).raised := by
  rcases ht.posts with hp | ⟨hp, -⟩
  · exact .inr (by omega)
  · rw [track_posted_put hp]
    exact .inl List.mem_cons_self

theorem Tracked.count (h : Numbered s) (ht : Tracked s.sem i signals sem) :
    (s.track i signals sem).posted.length = total Thread.puts sem.thread := by
  have htotal := total_of_others fun j hj => (ht.other j hj).2
  have hcount := h.count
  rcases ht.posts with hp | ⟨hp, -⟩
  · rw [track_posted_same hp]
    omega
  · rw [track_posted_put hp, List.length_cons]
    omega

theorem Tracked.numbered (h : Numbered s) (hok : (sem.thread i).Ok)
    (ht : Tracked s.sem i signals sem) : Numbered (s.track i signals sem) := by
  have hraised := ht.raised_eq
  have honce := hok.once
  have hother {j : ι} (hj : j ≠ i) : ((sem.thread j).puts < (sem.thread j).raised) =
      ((s.sem.thread j).puts < (s.sem.thread j).raised) := by
    rw [(ht.other j hj).1, (ht.other j hj).2]
  rcases ht.raises with hr | ⟨hr, hbefore⟩
  · have hsame : raised sem = raised s.sem := by omega
    have hrank : (s.track i signals sem).rank = s.rank := track_rank_same hr
    constructor
    · intro r hlt
      rcases h.ranks r (hlt.trans_eq hsame) with hin | ⟨j, hj, rfl⟩
      · exact .inl (mem_track ht hin)
      · rw [hrank]
        by_cases hji : j = i
        · subst hji
          rcases track_self ht (hj.trans_eq hr.symm) with hin | hopen
          · rw [hrank] at hin
            exact .inl hin
          · exact .inr ⟨j, hopen, rfl⟩
        · exact .inr ⟨j, (hother hji).mpr hj, rfl⟩
    · intro r hin
      change r < raised sem
      rw [hsame]
      rcases ht.posts with hp | ⟨hp, -⟩
      · rw [track_posted_same hp] at hin
        exact h.posted r hin
      · rw [track_posted_put hp, hrank] at hin
        rcases List.mem_cons.mp hin with rfl | hin
        · exact h.rank i (by omega)
        · exact h.posted r hin
    · intro j hj
      change (s.track i signals sem).rank j < raised sem
      rw [hrank, hsame]
      apply h.rank j
      by_cases hji : j = i
      · subst hji
        have hputs : (s.sem.thread j).puts ≤ (sem.thread j).puts := by
          rcases ht.posts with hp | ⟨hp, -⟩ <;> omega
        exact (hputs.trans_lt hj).trans_eq hr
      · exact (hother hji).mp hj
    · exact ht.count h
  -- the thread starts to be responsible for the number of raises so far
  · have hnext : raised sem = raised s.sem + 1 := by omega
    have hrank : (s.track i signals sem).rank = Function.update s.rank i (raised s.sem) :=
      track_rank_raised hr
    constructor
    · intro r hlt
      rcases Nat.lt_succ_iff_lt_or_eq.mp (hlt.trans_eq hnext) with hlt | rfl
      · rcases h.ranks r hlt with hin | ⟨j, hj, rfl⟩
        · exact .inl (mem_track ht hin)
        · have hji : j ≠ i := by
            rintro rfl
            omega
          exact .inr ⟨j, (hother hji).mpr hj, by rw [hrank, Function.update_of_ne hji]⟩
      · have hself : (s.track i signals sem).rank i = raised s.sem := by
          rw [hrank, Function.update_self]
        rcases track_self ht (by omega) with hin | hopen
        · rw [hself] at hin
          exact .inl hin
        · exact .inr ⟨i, hopen, hself⟩
    · intro r hin
      change r < raised sem
      rcases ht.posts with hp | ⟨hp, -⟩
      · rw [track_posted_same hp] at hin
        have := h.posted r hin
        omega
      · rw [track_posted_put hp, hrank, Function.update_self] at hin
        rcases List.mem_cons.mp hin with rfl | hin
        · omega
        · have := h.posted r hin
          omega
    · intro j hj
      change (s.track i signals sem).rank j < raised sem
      rw [hrank]
      by_cases hji : j = i
      · rw [hji, Function.update_self]
        omega
      · rw [Function.update_of_ne hji]
        have := h.rank j ((hother hji).mp hj)
        omega
    · exact ht.count h

end Numbers

section Pollers

variable [Fintype κ] [DecidableEq κ]

/-- A poller holds a reference from its registration on. -/
def Poller.present (p : Poller) : ℕ := if p.pc = .idle then 0 else 1

/-- Asleep, or about to be so. -/
def Poller.Waits (p : Poller) : Prop := p.pc = .asleep ∨ p.pc = .read ∧ p.val ≤ 0

/-- What a waiting poller that was not signalled has read accounts for every completed put, and the
value is still not positive unless it was raised since. -/
structure Accounts (s : PollState ι κ) (p : Poller) : Prop where
  posted : ∀ r ∈ s.posted, r < p.seen
  value : s.sem.event.value ≤ 0 ∨ p.seen < raised s.sem

structure PollInv (s : PollState ι κ) : Prop where
  settled : Settled s.sem
  refs : s.sem.event.pollrefs = total Poller.present s.poller
  numbered : Numbered s
  seen : ∀ k, (s.poller k).seen ≤ raised s.sem
  waits : ∀ k, (s.poller k).Waits → (s.poller k).signalled = false → Accounts s (s.poller k)

variable {s s' : PollState ι κ} {i : ι} {k : κ} {p : Poller} {initval : ℤ}

theorem notify_present : p.notify.present = p.present := by
  unfold Poller.notify
  split_ifs
  · rfl
  · rfl

theorem notify_seen : p.notify.seen = p.seen := by
  unfold Poller.notify
  split_ifs
  · rfl
  · rfl

theorem notify_signalled (h : p.notify.Waits) : p.notify.signalled = true := by
  unfold Poller.notify at h ⊢
  split_ifs at h ⊢ with hpc
  · simp [Poller.Waits, hpc] at h
  · rfl

omit [DecidableEq ι] in
/-- Where a poller waits, no put ends without a signal. -/
theorem PollInv.refs_pos (h : PollInv s) (hk : (s.poller k).Waits) :
    s.sem.event.pollrefs ≠ 0 := by
  have hle := le_total Poller.present s.poller k
  have hone : (s.poller k).present = 1 := by
    rcases hk with hpc | ⟨hpc, -⟩
    · simp [Poller.present, hpc]
    · simp [Poller.present, hpc]
  rw [h.refs]
  omega

/-- A tracked step of a thread keeps the account of the pollers. -/
theorem Tracked.inv {signals : Bool} {sem : State ι} (h : PollInv s) (hset : Settled sem)
    (ht : Tracked s.sem i signals sem) : PollInv (s.track i signals sem) := by
  have hraised := ht.raised_eq
  have honce := (hset.thread i).once
  have hposts := ht.posts
  constructor
  case settled => exact hset
  case refs =>
    refine ht.refs.trans (h.refs.trans (total_congr fun k => ?_))
    cases signals with
    | false => rfl
    | true => exact notify_present.symm
  case seen =>
    intro k
    have hk := h.seen k
    have hle : raised s.sem ≤ raised sem := by rcases ht.raises with hr | ⟨hr, -⟩ <;> omega
    cases signals with
    | false => exact hk.trans hle
    | true => exact notify_seen.trans_le (hk.trans hle)
  case waits =>
    intro k hw hu
    cases signals with
    | true =>
      have hsig : ((s.track i true sem).poller k).signalled = true := notify_signalled hw
      rw [hsig] at hu
      cases hu
    | false =>
      obtain ⟨hposted, hvalue⟩ := h.waits k hw hu
      have hrefs := h.refs_pos hw
      have hsame : ¬ (s.sem.thread i).puts < (sem.thread i).puts := by
        rcases hposts with hp | ⟨-, hsig | hzero⟩
        · omega
        · cases hsig
        · exact absurd hzero hrefs
      constructor
      · intro r hr
        rw [PollState.track, if_neg hsame] at hr
        exact hposted r hr
      · change sem.event.value ≤ 0 ∨ (s.poller k).seen < raised sem
        have hk := h.seen k
        rcases ht.value with hsig | hr | hle
        · cases hsig
        · exact .inr (by omega)
        · rcases ht.raises with hr | ⟨hr, -⟩
          · exact hvalue.imp hle fun hlt => by omega
          · exact .inr (by omega)
  case numbered => exact ht.numbered h.numbered (hset.thread i)

end Pollers

end Libevl.Sem
