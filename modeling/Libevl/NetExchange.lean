import Libevl.NetRx

/-!
# Two stations of a net test

Each station sends a frame, waits for the end of its period, and waits for a frame
of the other one before it sends again. Nothing is sent twice. So the stations stay
together, and the test goes on as long as not more than one frame is lost, in
whichever direction and whatever the delays. With the second it stalls, for ever.
-/
namespace Libevl.Net
open Transition

/-- What a station does next in the loop of `net_runner`. -/
inductive Phase
  | send
  | tick
  | recv
  deriving DecidableEq, Repr

/-- A station after some rounds. -/
structure Station where
  rounds : ℕ
  phase : Phase
  rx : Rx
  deriving DecidableEq, Repr

/-- The two stations, the frames of each which are under way, and how many of them are lost. -/
structure Exchange where
  station : Bool → Station
  wire : Bool → List (List (BitVec 8))
  lost : Bool → ℕ

/-- A station may receive any of the frames that are under way, and any of them may be lost. -/
inductive Act
  | send (i : Bool)
  | tick (i : Bool)
  | recv (i : Bool) (k : ℕ)
  | lose (i : Bool) (k : ℕ)
  deriving DecidableEq, Repr

/-- The steps of `net_runner` on both sides, and those of the network. -/
def step (packetSize : ℕ) (s : Exchange) : Act → Option Exchange
  | .send i =>
    let t := s.station i
    if t.phase = .send then
      some { s with
        station := Function.update s.station i { t with phase := .tick }
        wire := Function.update s.wire i
          (s.wire i ++ [prepareOutput packetSize (t.rounds % 2 ^ 64)]) }
    else none
  | .tick i =>
    let t := s.station i
    if t.phase = .tick then
      some { s with station := Function.update s.station i { t with phase := .recv } }
    else none
  | .recv i k =>
    let t := s.station i
    match (s.wire !i)[k]? with
    | some msg =>
      if t.phase = .recv then
        some { s with
          station := Function.update s.station i ⟨t.rounds + 1, .send, rx packetSize t.rx msg⟩
          wire := Function.update s.wire (!i) ((s.wire !i).eraseIdx k) }
      else none
    | none => none
  | .lose i k =>
    if k < (s.wire i).length then
      some { s with
        wire := Function.update s.wire i ((s.wire i).eraseIdx k)
        lost := Function.update s.lost i (s.lost i + 1) }
    else none

/-- Two stations which start. -/
def start (packetSize : ℕ) : Exchange :=
  ⟨fun _ => ⟨0, .send, (fresh packetSize).rx⟩, fun _ => [], fun _ => 0⟩

/-- A step of a station. -/
def Act.ofStation : Act → Bool
  | .lose .. => false
  | _ => true

/-- How far a station is in its round. -/
def Phase.index : Phase → ℕ
  | .send => 0
  | .tick => 1
  | .recv => 2

/-- How many frames a station sent. -/
def Station.sent (t : Station) : ℕ := if t.phase = .send then t.rounds else t.rounds + 1

/-- A frame is received or lost or under way. -/
def Conserved (s : Exchange) : Prop :=
  ∀ i, (s.wire i).length + s.lost i + (s.station !i).rounds = (s.station i).sent

/-- The steps that were taken, but for those of the network. -/
def work (s : Exchange) : ℕ :=
  3 * (s.station true).rounds + (s.station true).phase.index +
    (3 * (s.station false).rounds + (s.station false).phase.index)

section Steps

variable {n : ℕ} {s s' : Exchange} {a : Act}

theorem start_conserved (n : ℕ) : Conserved (start n) := fun _ => rfl

/-- What a step requires, and what it does. -/
theorem step_cases (hs : step n s a = some s') :
    match a with
    | .send i => (s.station i).phase = .send ∧ s' = { s with
        station := Function.update s.station i { s.station i with phase := .tick }
        wire := Function.update s.wire i
          (s.wire i ++ [prepareOutput n ((s.station i).rounds % 2 ^ 64)]) }
    | .tick i => (s.station i).phase = .tick ∧ s' = { s with
        station := Function.update s.station i { s.station i with phase := .recv } }
    | .recv i k => (s.station i).phase = .recv ∧ ∃ hk : k < (s.wire !i).length, s' = { s with
        station := Function.update s.station i
          ⟨(s.station i).rounds + 1, .send, rx n (s.station i).rx (s.wire !i)[k]⟩
        wire := Function.update s.wire (!i) ((s.wire !i).eraseIdx k) }
    | .lose i k => k < (s.wire i).length ∧ s' = { s with
        wire := Function.update s.wire i ((s.wire i).eraseIdx k)
        lost := Function.update s.lost i (s.lost i + 1) } := by
  cases a with
  | send i =>
    unfold step at hs
    dsimp only at hs
    split_ifs at hs with h
    exact ⟨h, (Option.some.inj hs).symm⟩
  | tick i =>
    unfold step at hs
    dsimp only at hs
    split_ifs at hs with h
    exact ⟨h, (Option.some.inj hs).symm⟩
  | recv i k =>
    unfold step at hs
    cases hmsg : (s.wire !i)[k]? with
    | none => simp [hmsg] at hs
    | some msg =>
      obtain ⟨hk, rfl⟩ := List.getElem?_eq_some_iff.mp hmsg
      simp only [hmsg] at hs
      split_ifs at hs with h
      exact ⟨h, hk, (Option.some.inj hs).symm⟩
  | lose i k =>
    unfold step at hs
    dsimp only at hs
    split_ifs at hs with h
    exact ⟨h, (Option.some.inj hs).symm⟩

theorem sent_of_send {t : Station} (h : t.phase = .send) : t.sent = t.rounds := if_pos h

theorem sent_of_ne {t : Station} (h : t.phase ≠ .send) : t.sent = t.rounds + 1 := if_neg h

@[simp] theorem sent_send (r : ℕ) (t : Rx) : (Station.mk r .send t).sent = r := rfl

@[simp] theorem sent_tick (r : ℕ) (t : Rx) : (Station.mk r .tick t).sent = r + 1 := rfl

@[simp] theorem sent_recv (r : ℕ) (t : Rx) : (Station.mk r .recv t).sent = r + 1 := rfl

/-- What a step does to the counts. -/
theorem Conserved.step (h : Conserved s) (hs : step n s a = some s') : Conserved s' := by
  have h₀ := h false
  have h₁ := h true
  have hcases := step_cases hs
  rw [Bool.not_false] at h₀
  rw [Bool.not_true] at h₁
  cases a with
  | send i =>
    obtain ⟨hphase, rfl⟩ := hcases
    have hsent := sent_of_send hphase
    intro j
    cases i <;> cases j <;> simp <;> omega
  | tick i =>
    obtain ⟨hphase, rfl⟩ := hcases
    have hsent := sent_of_ne (by rw [hphase]; decide : (s.station i).phase ≠ .send)
    intro j
    cases i <;> cases j <;> simp <;> omega
  | recv i k =>
    obtain ⟨hphase, hk, rfl⟩ := hcases
    have hsent := sent_of_ne (by rw [hphase]; decide : (s.station i).phase ≠ .send)
    have hlen := List.length_eraseIdx_add_one hk
    intro j
    cases i <;> cases j <;> simp only [Bool.not_false, Bool.not_true] at hlen <;> simp <;> omega
  | lose i k =>
    obtain ⟨hk, rfl⟩ := hcases
    have hlen := List.length_eraseIdx_add_one hk
    intro j
    cases i <;> cases j <;> simp <;> omega

theorem work_step (hs : Net.step n s a = some s') :
    work s' = work s + if a.ofStation then 1 else 0 := by
  have hcases := step_cases hs
  cases a with
  | send i =>
    obtain ⟨hphase, rfl⟩ := hcases
    cases i <;> simp [work, Phase.index, Act.ofStation, hphase] <;> omega
  | tick i =>
    obtain ⟨hphase, rfl⟩ := hcases
    cases i <;> simp [work, Phase.index, Act.ofStation, hphase] <;> omega
  | recv i k =>
    obtain ⟨hphase, hk, rfl⟩ := hcases
    cases i <;> simp [work, Phase.index, Act.ofStation, hphase] <;> omega
  | lose i k =>
    obtain ⟨hk, rfl⟩ := hcases
    rfl

/-- The states of all runs. -/
abbrev Reachable (n : ℕ) : Exchange → Prop :=
  Reach (fun s a s' => step n s a = some s') (· = start n)

theorem Reachable.conserved (h : Reachable n s) : Conserved s :=
  h.invariant (fun _ h₀ => h₀ ▸ start_conserved n) fun _ _ _ hc hs => hc.step hs

theorem sent_le (t : Station) : t.rounds ≤ t.sent ∧ t.sent ≤ t.rounds + 1 := by
  unfold Station.sent
  split_ifs <;> omega

/-- The stations are at most one round apart, and not more than two frames are missing. -/
theorem Conserved.lockstep (h : Conserved s) (i : Bool) :
    (s.station i).rounds ≤ (s.station !i).rounds + 1 ∧
      (s.wire i).length + (s.wire !i).length + (s.lost i + s.lost !i) ≤ 2 := by
  have hi := h i
  have hj := h !i
  rw [Bool.not_not] at hj
  have hle := sent_le (s.station i)
  have hle' := sent_le (s.station !i)
  omega

/-- Two frames are lost. -/
def Dead (s : Exchange) : Prop := s.lost true + s.lost false = 2

/-- Then nothing is under way. -/
theorem Conserved.wire_of_dead (h : Conserved s) (hd : Dead s) (i : Bool) : s.wire i = [] := by
  have hl := (h.lockstep true).2
  rw [Bool.not_true] at hl
  unfold Dead at hd
  cases i
  · exact List.length_eq_zero_iff.mp (by omega)
  · exact List.length_eq_zero_iff.mp (by omega)

/-- Then no round is completed any more. -/
theorem Conserved.dead_step (h : Conserved s) (hd : Dead s) (hs : Net.step n s a = some s') :
    Dead s' ∧ ∀ i, (s'.station i).rounds = (s.station i).rounds := by
  have hcases := step_cases hs
  cases a with
  | send i =>
    obtain ⟨-, rfl⟩ := hcases
    refine ⟨hd, fun j => ?_⟩
    cases i <;> cases j <;> rfl
  | tick i =>
    obtain ⟨-, rfl⟩ := hcases
    refine ⟨hd, fun j => ?_⟩
    cases i <;> cases j <;> rfl
  | recv i k =>
    obtain ⟨-, hk, -⟩ := hcases
    rw [h.wire_of_dead hd] at hk
    exact absurd hk (Nat.not_lt_zero k)
  | lose i k =>
    obtain ⟨hk, -⟩ := hcases
    rw [h.wire_of_dead hd] at hk
    exact absurd hk (Nat.not_lt_zero k)

/-- As long as two frames are not lost, some station can go on. -/
theorem Conserved.enabled (h : Conserved s) (hd : ¬ Dead s) (n : ℕ) :
    ∃ a, a.ofStation = true ∧ (Net.step n s a).isSome = true := by
  by_cases hsend : ∃ i, (s.station i).phase = .send
  · obtain ⟨i, hi⟩ := hsend
    exact ⟨.send i, rfl, by simp only [Net.step, hi, if_true, Option.isSome_some]⟩
  by_cases htick : ∃ i, (s.station i).phase = .tick
  · obtain ⟨i, hi⟩ := htick
    exact ⟨.tick i, rfl, by simp only [Net.step, hi, if_true, Option.isSome_some]⟩
  have hphase : ∀ i, (s.station i).phase = .recv := by
    intro i
    cases hp : (s.station i).phase with
    | send => exact absurd ⟨i, hp⟩ hsend
    | tick => exact absurd ⟨i, hp⟩ htick
    | recv => rfl
  have hsent : ∀ i, (s.station i).sent = (s.station i).rounds + 1 := fun i =>
    sent_of_ne fun hi => hsend ⟨i, hi⟩
  obtain ⟨i, hwire⟩ : ∃ i, 0 < (s.wire !i).length := by
    by_contra hno
    have h₀ := h false
    have h₁ := h true
    have hw₀ : ¬ 0 < (s.wire !false).length := fun hlt => hno ⟨_, hlt⟩
    have hw₁ : ¬ 0 < (s.wire !true).length := fun hlt => hno ⟨_, hlt⟩
    have hl := (h.lockstep true).2
    rw [hsent] at h₀ h₁
    rw [Bool.not_false] at h₀ hw₀
    rw [Bool.not_true] at h₁ hw₁ hl
    unfold Dead at hd
    omega
  refine ⟨.recv i 0, rfl, ?_⟩
  simp only [Net.step, List.getElem?_eq_getElem hwire, hphase i, if_true, Option.isSome_some]

/-- Steps of the stations go on with the rounds of both. -/
theorem runs_work {as : List Act} (has : ∀ a ∈ as, a.ofStation = true)
    (hr : runs (Net.step n) s as = some s') : work s' = work s + as.length := by
  induction as generalizing s with
  | nil =>
    cases hr
    rfl
  | cons a as ih =>
    obtain ⟨t, ht, hr⟩ := Option.bind_eq_some_iff.mp hr
    have hstep := work_step ht
    rw [if_pos (has a List.mem_cons_self)] at hstep
    have hrest := ih (fun b hb => has b (List.mem_cons_of_mem a hb)) hr
    rw [List.length_cons]
    omega

theorem Conserved.runs {as : List Act} (h : Conserved s)
    (hr : Transition.runs (Net.step n) s as = some s') : Conserved s' :=
  runs_invariant (fun _ _ _ _ hc hs => hc.step hs) h hr

/-- Only the network loses frames. -/
theorem lost_step (ha : a.ofStation = true) (hs : Net.step n s a = some s') :
    s'.lost = s.lost := by
  have hcases := step_cases hs
  cases a with
  | send i => rw [hcases.2]
  | tick i => rw [hcases.2]
  | recv i k =>
    obtain ⟨-, hk, rfl⟩ := hcases
    rfl
  | lose i k => cases ha

theorem Conserved.exists_run (h : Conserved s) (hd : ¬ Dead s) (n k : ℕ) :
    ∃ as s', as.length = k ∧ (∀ a ∈ as, a.ofStation = true) ∧
      Transition.runs (Net.step n) s as = some s' := by
  induction k generalizing s with
  | zero => exact ⟨[], s, rfl, by simp, rfl⟩
  | succ k ih =>
    obtain ⟨a, ha, hsome⟩ := h.enabled hd n
    obtain ⟨t, ht⟩ := Option.isSome_iff_exists.mp hsome
    have hd' : ¬ Dead t := by
      unfold Dead
      rw [lost_step ha ht]
      exact hd
    obtain ⟨as, s', hlen, has, hr⟩ := ih (h.step ht) hd'
    refine ⟨a :: as, s', by rw [List.length_cons, hlen], ?_, ?_⟩
    · exact List.forall_mem_cons.mpr ⟨ha, has⟩
    · rw [Transition.runs, ht, Option.bind_some, hr]

theorem dead_runs {as : List Act} (h : Conserved s) (hd : Dead s)
    (hr : Transition.runs (Net.step n) s as = some s') (i : Bool) :
    (s'.station i).rounds = (s.station i).rounds := by
  have hinv := runs_invariant (I := fun t => Conserved t ∧ Dead t ∧
      ∀ i, (t.station i).rounds = (s.station i).rounds)
    (fun a _ t t' ht hs => ⟨ht.1.step hs, (ht.1.dead_step ht.2.1 hs).1, fun i =>
      ((ht.1.dead_step ht.2.1 hs).2 i).trans (ht.2.2 i)⟩) ⟨h, hd, fun _ => rfl⟩ hr
  exact hinv.2.2 i

/-- Without losses the rounds go on at an even pace. -/
theorem Conserved.pace {as : List Act} (h : Conserved s) (has : ∀ a ∈ as, a.ofStation = true)
    (hr : Transition.runs (Net.step n) s as = some s') (i : Bool) :
    6 * (s.station i).rounds + as.length ≤ 6 * (s'.station i).rounds + 10 := by
  have hwork := runs_work has hr
  have hindex : ∀ p : Phase, p.index ≤ 2 := fun p => by cases p <;> decide
  have h₁ := hindex (s'.station true).phase
  have h₀ := hindex (s'.station false).phase
  have hb := (h.lockstep i).1
  have ha := ((h.runs hr).lockstep !i).1
  rw [Bool.not_not] at ha
  unfold work at hwork
  cases i
  · rw [Bool.not_false] at ha hb
    omega
  · rw [Bool.not_true] at ha hb
    omega

end Steps

/-- Whatever the order of the steps, the stations stay together, and while not more than one frame
is lost they go on at an even pace and never wait for each other. -/
theorem exchange_goes_on {n : ℕ} {s s' : Exchange} {as : List Act} (h : Reachable n s)
    (has : ∀ a ∈ as, a.ofStation = true) (hr : runs (step n) s as = some s') (i : Bool) :
    (s'.station i).rounds ≤ (s'.station !i).rounds + 1 ∧
      6 * (s.station i).rounds + as.length ≤ 6 * (s'.station i).rounds + 10 ∧
      (s'.lost true + s'.lost false ≤ 1 →
        ∃ a, a.ofStation = true ∧ (step n s' a).isSome = true) := by
  have hc := h.conserved
  refine ⟨((hc.runs hr).lockstep i).1, hc.pace has hr i, fun hl => (hc.runs hr).enabled ?_ n⟩
  unfold Dead
  omega

/-- The first frame of one station is lost. -/
def firstLost : List Act := [.send true, .lose true 0, .send false]

theorem reachable_of_runs {n : ℕ} {s : Exchange} {as : List Act}
    (h : runs (step n) (start n) as = some s) : Reachable n s :=
  reach_of_runs (fun _ _ _ _ hs => hs) (.init rfl) h

theorem exchange_goes_on_firstLost : ∃ s s', runs (step 21) (start 21) firstLost = some s ∧
    runs (step 21) s [.tick true, .recv true 0, .send true] = some s' ∧
    (s'.station true).rounds ≤ (s'.station false).rounds + 1 ∧
      6 * (s.station true).rounds + 3 ≤ 6 * (s'.station true).rounds + 10 ∧
      (s'.lost true + s'.lost false ≤ 1 →
        ∃ a, a.ofStation = true ∧ (step 21 s' a).isSome = true) := by
  have hruns : ((runs (step 21) (start 21) firstLost).bind fun s =>
      runs (step 21) s [.tick true, .recv true 0, .send true]).isSome = true := by decide +kernel
  obtain ⟨s', hs'⟩ := Option.isSome_iff_exists.mp hruns
  obtain ⟨s, hs, hs'⟩ := Option.bind_eq_some_iff.mp hs'
  exact ⟨s, s', hs, hs', exchange_goes_on (reachable_of_runs hs) (by decide) hs' true⟩

/-- No round is completed after a state exactly if two frames are lost there, and there are never
more than two. -/
theorem exchange_stalls_iff {n : ℕ} {s : Exchange} (h : Reachable n s) :
    s.lost true + s.lost false ≤ 2 ∧
      ((∀ as s', runs (step n) s as = some s' →
        ∀ i, (s'.station i).rounds = (s.station i).rounds) ↔ s.lost true + s.lost false = 2) := by
  have hc := h.conserved
  have hl := (hc.lockstep true).2
  rw [Bool.not_true] at hl
  refine ⟨by omega, fun hstall => ?_, fun hd as s' hr i => dead_runs hc hd hr i⟩
  by_contra hd
  obtain ⟨as, s', hlen, has, hr⟩ := hc.exists_run hd n 11
  have hpace := hc.pace has hr true
  have hsame := hstall as s' hr true
  omega

/-- The first frame of the other station is lost as well. -/
theorem exchange_stalls_iff_bothLost : ∃ s,
    runs (step 21) (start 21) (firstLost ++ [.tick true, .lose false 0]) = some s ∧
    ∀ as s', runs (step 21) s as = some s' →
      ∀ i, (s'.station i).rounds = (s.station i).rounds := by
  have hruns : (runs (step 21) (start 21) (firstLost ++ [.tick true, .lose false 0])).map
      (fun s => s.lost true + s.lost false) = some 2 := by decide +kernel
  obtain ⟨s, hs, hlost⟩ := Option.map_eq_some_iff.mp hruns
  exact ⟨s, hs, (exchange_stalls_iff (reachable_of_runs hs)).2.mpr hlost⟩

section Reports

variable {n sent lost received serial : ℕ} {wire : List (List (BitVec 8))} {r : Rx} {W : List ℕ}

/-- The frames from one station to the other, where `W` are the serial numbers of those under way,
if they do not overtake each other. -/
structure Link (n sent lost received : ℕ) (wire : List (List (BitVec 8))) (r : Rx) (W : List ℕ) :
    Prop where
  wire_eq : wire = W.map (prepareOutput n)
  sorted : W.Pairwise (· < ·)
  below : ∀ w ∈ W, w < sent
  count : W.length + lost + received = sent
  first : received = 0 → r.lastSerial = 0
  last : 0 < received → r.lastSerial < sent ∧ received ≤ r.lastSerial + 1 ∧
    ∀ w ∈ W, r.lastSerial < w
  reported : r.invalidLost ≤ lost
  length : r.packet.length = n
  check : r.checkSequence = true

/-- Strictly increasing numbers from `a` on and below `b` are at most `b - a`. -/
theorem length_le_of_sorted {W : List ℕ} {a b : ℕ} (hs : W.Pairwise (· < ·))
    (ha : ∀ w ∈ W, a ≤ w) (hb : ∀ w ∈ W, w < b) : W.length ≤ b - a := by
  induction W generalizing a with
  | nil => exact Nat.zero_le _
  | cons w W ih =>
    obtain ⟨hw, hs⟩ := List.pairwise_cons.mp hs
    have hrest := @ih (w + 1) hs (fun v hv => hw v hv) fun v hv => hb v (List.mem_cons_of_mem w hv)
    have hwa := ha w List.mem_cons_self
    have hwb := hb w List.mem_cons_self
    rw [List.length_cons]
    omega

theorem Link.send (h : Link n sent lost received wire r W) :
    Link n (sent + 1) lost received (wire ++ [prepareOutput n sent]) r (W ++ [sent]) where
  wire_eq := by rw [h.wire_eq, List.map_append, List.map_singleton]
  sorted := by
    refine List.pairwise_append.mpr ⟨h.sorted, List.pairwise_singleton _ _, fun a ha b hb => ?_⟩
    rw [List.mem_singleton.mp hb]
    exact h.below a ha
  below w hw := by
    rcases List.mem_append.mp hw with hw | hw
    · exact Nat.lt_succ_of_lt (h.below w hw)
    · rw [List.mem_singleton.mp hw]
      exact Nat.lt_succ_self sent
  count := by
    have hcount := h.count
    rw [List.length_append, List.length_singleton]
    omega
  first := h.first
  last hr := by
    obtain ⟨hlt, hle, hall⟩ := h.last hr
    refine ⟨Nat.lt_succ_of_lt hlt, hle, fun w hw => ?_⟩
    rcases List.mem_append.mp hw with hw | hw
    · exact hall w hw
    · rw [List.mem_singleton.mp hw]
      exact hlt
  reported := h.reported
  length := h.length
  check := h.check

theorem Link.lose {k : ℕ} (h : Link n sent lost received wire r W) (hk : k < wire.length) :
    Link n sent (lost + 1) received (wire.eraseIdx k) r (W.eraseIdx k) where
  wire_eq := by rw [h.wire_eq, List.eraseIdx_map]
  sorted := h.sorted.sublist (List.eraseIdx_sublist W k)
  below w hw := h.below w (List.mem_of_mem_eraseIdx hw)
  count := by
    rw [h.wire_eq, List.length_map] at hk
    have hlen := List.length_eraseIdx_add_one hk
    have hcount := h.count
    omega
  first := h.first
  last hr := by
    obtain ⟨hlt, hle, hall⟩ := h.last hr
    exact ⟨hlt, hle, fun w hw => hall w (List.mem_of_mem_eraseIdx hw)⟩
  reported := h.reported.trans (Nat.le_succ lost)
  length := h.length
  check := h.check

/-- The receiver accepts the serial number of a frame. -/
theorem rx_prepareOutput (hsize : 20 < n) (hserial : serial < 2 ^ 31) (hlen : r.packet.length = n) :
    rx n r (prepareOutput n serial) = (r.fill (prepareOutput n serial)).accept serial := by
  have hmsg : (prepareOutput n serial).length = n := length_prepareOutput hsize
  have hfill : (r.fill (prepareOutput n serial)).packet = prepareOutput n serial := by
    show receive r.packet (prepareOutput n serial) = _
    rw [receive, List.take_of_length_le (by omega), List.drop_of_length_le (by omega),
      List.append_nil]
  have hstart : (prepareOutput n serial).getD 0 0 = 94 := rfl
  have hparse : parseInput n (prepareOutput n serial) = some serial :=
    (parse_iff hsize (by omega)).mpr (.inl hserial)
  unfold rx
  simp only [hfill, hstart, hparse, if_true]

theorem Link.recv (h : Link n sent lost received wire r W) (hsize : 20 < n) (hsent : sent < 2 ^ 31)
    (hk : 0 < wire.length) :
    ∃ W', Link n sent lost (received + 1) (wire.eraseIdx 0) (rx n r wire[0]) W' := by
  obtain ⟨hwire, hsorted, hbelow, hcount, hfirst, hlast, hreported, hlen, hcheck⟩ := h
  cases W with
  | nil =>
    rw [hwire] at hk
    exact absurd hk (Nat.not_lt_zero 0)
  | cons w W =>
    subst hwire
    obtain ⟨hw, hsorted⟩ := List.pairwise_cons.mp hsorted
    have hwlt := hbelow w List.mem_cons_self
    have hbelow' : ∀ v ∈ W, v < sent := fun v hv => hbelow v (List.mem_cons_of_mem w hv)
    have hmany := length_le_of_sorted hsorted (fun v hv => hw v hv) hbelow'
    have hrx : rx n r ((w :: W).map (prepareOutput n))[0] =
        (r.fill (prepareOutput n w)).accept w := rx_prepareOutput hsize (by omega) hlen
    rw [hrx]
    refine ⟨W, rfl, hsorted, hbelow', ?_, fun h0 => absurd h0 (Nat.succ_ne_zero _),
      fun _ => ⟨hwlt, ?_, hw⟩, ?_, ?_, hcheck⟩
    · rw [List.length_cons] at hcount
      omega
    · show received + 1 ≤ w + 1
      rcases Nat.eq_zero_or_pos received with h0 | h0
      · omega
      · obtain ⟨-, hle, hall⟩ := hlast h0
        have hlt := hall w List.mem_cons_self
        omega
    · rw [List.length_cons] at hcount
      show (if r.checkSequence = true ∧ r.lastSerial > 0 ∧ w ≠ (r.lastSerial + 1) % 2 ^ 64 then
        if w > r.lastSerial then w - r.lastSerial - 1 else countUp r.invalidLost
        else r.invalidLost) ≤ lost
      by_cases hgap : r.checkSequence = true ∧ r.lastSerial > 0 ∧ w ≠ (r.lastSerial + 1) % 2 ^ 64
      · -- the serial numbers of the gap are neither under way nor received
        have h0 : 0 < received := Nat.pos_of_ne_zero fun h0 => hgap.2.1.ne' (hfirst h0)
        obtain ⟨-, hle, hall⟩ := hlast h0
        have hlt := hall w List.mem_cons_self
        rw [if_pos hgap, if_pos hlt]
        omega
      · rw [if_neg hgap]
        exact hreported
    · show (receive r.packet (prepareOutput n w)).length = n
      have hmsg : (prepareOutput n w).length = n := length_prepareOutput hsize
      rw [receive, List.length_append, List.length_take, List.length_drop]
      omega

/-- Both directions. -/
def Linked (n : ℕ) (s : Exchange) : Prop := ∀ i, ∃ W,
  Link n (s.station i).sent (s.lost i) (s.station !i).rounds (s.wire i) (s.station !i).rx W

/-- No frame overtakes another. -/
def Act.inOrder : Act → Bool
  | .recv _ k => k = 0
  | _ => true

theorem start_linked (n : ℕ) : Linked n (start n) := fun _ =>
  ⟨[], rfl, .nil, nofun, rfl, fun _ => rfl, nofun, le_rfl, List.length_replicate, rfl⟩

theorem Linked.step {s s' : Exchange} {a : Act} (h : Linked n s) (hsize : 20 < n)
    (hs : Net.step n s a = some s') (ha : a.inOrder = true)
    (hfew : ∀ i, (s'.station i).rounds + 1 < 2 ^ 31) : Linked n s' := by
  have hcases := step_cases hs
  cases a with
  | send i =>
    obtain ⟨hphase, rfl⟩ := hcases
    obtain ⟨W, hlink⟩ := h i
    have hother := h !i
    have hrounds : (s.station i).rounds + 1 < 2 ^ 31 := by simpa using hfew i
    have hmod : (s.station i).rounds % 2 ^ 64 = (s.station i).rounds := Nat.mod_eq_of_lt (by omega)
    rw [sent_of_send hphase] at hlink
    rw [hmod]
    intro j
    by_cases hj : j = i
    · subst hj
      refine ⟨W ++ [(s.station j).rounds], ?_⟩
      simpa using hlink.send
    · obtain rfl : j = !i := Bool.eq_not_of_ne hj
      simpa using hother
  | tick i =>
    obtain ⟨hphase, rfl⟩ := hcases
    have hsent := sent_of_ne (by rw [hphase]; decide : (s.station i).phase ≠ .send)
    intro j
    by_cases hj : j = i
    · subst hj
      simpa [hsent] using h j
    · obtain rfl : j = !i := Bool.eq_not_of_ne hj
      simpa using h !i
  | recv i k =>
    obtain ⟨hphase, hk, rfl⟩ := hcases
    obtain rfl : k = 0 := of_decide_eq_true ha
    have hsent := sent_of_ne (by rw [hphase]; decide : (s.station i).phase ≠ .send)
    obtain ⟨W, hlink⟩ := h !i
    rw [Bool.not_not] at hlink
    have hle := (sent_le (s.station !i)).2
    have hrounds : (s.station !i).rounds + 1 < 2 ^ 31 := by simpa using hfew !i
    intro j
    by_cases hj : j = i
    · subst hj
      simpa [hsent] using h j
    · obtain rfl : j = !i := Bool.eq_not_of_ne hj
      simpa using hlink.recv hsize (by omega) hk
  | lose i k =>
    obtain ⟨hk, rfl⟩ := hcases
    obtain ⟨W, hlink⟩ := h i
    intro j
    by_cases hj : j = i
    · subst hj
      refine ⟨W.eraseIdx k, ?_⟩
      simpa using hlink.lose hk
    · obtain rfl : j = !i := Bool.eq_not_of_ne hj
      simpa using h !i

end Reports

/-- If the frames stay in order, a station never reports more frames lost than are lost, which are
two at most. The serial numbers beyond `INT_MAX` are left out, as they are not parsed. -/
theorem exchange_reports {n : ℕ} {s : Exchange} (hsize : 20 < n)
    (h : Reach (fun s a s' => step n s a = some s' ∧ a.inOrder = true ∧
      ∀ i, (s'.station i).rounds + 1 < 2 ^ 31) (· = start n) s) (i : Bool) :
    (s.station i).rx.invalidLost ≤ s.lost !i ∧ s.lost (!i) ≤ 2 := by
  have hlinked : Linked n s := h.invariant (fun _ h₀ => h₀ ▸ start_linked n)
    fun _ _ _ hl hs => hl.step hsize hs.1 hs.2.1 hs.2.2
  obtain ⟨W, hlink⟩ := hlinked !i
  have hreach : Reachable n s := h.mono fun _ _ _ hs => hs.1
  have hl := (hreach.conserved.lockstep !i).2
  have hreported := hlink.reported
  rw [Bool.not_not] at hreported hl
  exact ⟨hreported, by omega⟩

/-- The steps which keep the order, while there are few rounds. -/
def inOrderExec (n : ℕ) (s : Exchange) (a : Act) : Option Exchange :=
  (step n s a).bind fun s' =>
    if a.inOrder = true ∧ ∀ i, (s'.station i).rounds + 1 < 2 ^ 31 then some s' else none

theorem inOrder_of_exec {n : ℕ} {s s' : Exchange} {a : Act} (h : inOrderExec n s a = some s') :
    step n s a = some s' ∧ a.inOrder = true ∧ ∀ i, (s'.station i).rounds + 1 < 2 ^ 31 := by
  obtain ⟨t, ht, h⟩ := Option.bind_eq_some_iff.mp h
  split_ifs at h with hc
  cases h
  exact ⟨ht, hc⟩

/-- Three rounds, the last frame of one station being lost, and its next one received. -/
def thirdLost : List Act :=
  (List.replicate 2 [.send true, .send false, .tick true, .tick false, .recv true 0,
    .recv false 0]).flatten ++
  [.send true, .lose true 0, .send false, .tick true, .recv true 0, .send true, .tick false,
    .recv false 0]

theorem exchange_reports_thirdLost : ∃ s, runs (inOrderExec 21) (start 21) thirdLost = some s ∧
    (s.station false).rx.invalidLost ≤ s.lost true := by
  have hruns : (runs (inOrderExec 21) (start 21) thirdLost).isSome = true := by decide +kernel
  obtain ⟨s, hs⟩ := Option.isSome_iff_exists.mp hruns
  exact ⟨s, hs, (exchange_reports (by decide)
    (reach_of_runs (fun _ _ _ _ => inOrder_of_exec) (.init rfl) hs) false).1⟩

end Libevl.Net
