import Libevl.NetFrame
import Libevl.Transition

/-!
# Lost frames

The receiver counts what it could not parse, and the serial numbers which did not
come. A serial number of zero means to it that nothing was received yet. The number
of frames which are really lost is kept beside it, and the condition under which the
two agree is exact.
-/
namespace Libevl.Net
open Transition

/-- What `rx` uses of `struct latmus_net_rx`. -/
structure Rx where
  packet : List (BitVec 8)
  lastSerial : ℕ
  invalidLost : ℕ
  checkSequence : Bool
  deriving DecidableEq, Repr

/-- A datagram overwrites the start of the buffer, as far as it fits. -/
def receive (packet msg : List (BitVec 8)) : List (BitVec 8) :=
  msg.take packet.length ++ packet.drop msg.length

/-- An increment of an `unsigned long`. -/
def countUp (n : ℕ) : ℕ := (n + 1) % 2 ^ 64

/-- A datagram that is no valid frame. -/
def Rx.reject (r : Rx) : Rx := { r with invalidLost := countUp r.invalidLost }

/-- A frame with the serial number `next`. -/
def Rx.accept (r : Rx) (next : ℕ) : Rx :=
  let lost :=
    if r.checkSequence = true ∧ r.lastSerial > 0 ∧ next ≠ (r.lastSerial + 1) % 2 ^ 64 then
      if next > r.lastSerial then next - r.lastSerial - 1 else countUp r.invalidLost
    else r.invalidLost
  { r with invalidLost := lost, lastSerial := next }

/-- The buffer after a datagram has come in. -/
def Rx.fill (r : Rx) (msg : List (BitVec 8)) : Rx := { r with packet := receive r.packet msg }

/-- `rx` on a datagram. -/
def rx (packetSize : ℕ) (r : Rx) (msg : List (BitVec 8)) : Rx :=
  let r := r.fill msg
  if r.packet.getD 0 0 = 94 then
    match parseInput packetSize r.packet with
    | none => r.reject
    | some next => r.accept next
  else r.reject

/-- The serial number of a buffer that parses as a frame. -/
def serialOf (packetSize : ℕ) (packet : List (BitVec 8)) : Option ℕ :=
  if packet.getD 0 0 = 94 then parseInput packetSize packet else none

/-- How many frames are lost when `parsed` comes after the serial number `last`. The successor of a
`size_t` is taken modulo 2^64. -/
def increment : Option ℕ → Option ℕ → ℕ
  | _, none => 1
  | none, some _ => 0
  | some last, some next =>
    if next = (last + 1) % 2 ^ 64 then 0 else if last < next then next - last - 1 else 1

/-- A receiver, the last serial number that was parsed, and the sum of the increments. -/
structure RxRun where
  rx : Rx
  last : Option ℕ
  total : ℕ
  deriving DecidableEq, Repr

variable {packetSize : ℕ} {s s' : RxRun} {msg : List (BitVec 8)}

/-- What the next datagram parses to. -/
def parsed (packetSize : ℕ) (s : RxRun) (msg : List (BitVec 8)) : Option ℕ :=
  serialOf packetSize (s.rx.fill msg).packet

def rxStep (packetSize : ℕ) (s : RxRun) (msg : List (BitVec 8)) : RxRun where
  rx := rx packetSize s.rx msg
  last := (parsed packetSize s msg).or s.last
  total := s.total + increment s.last (parsed packetSize s msg)

/-- A fresh descriptor, with sequence checking on. -/
def fresh (packetSize : ℕ) : RxRun := ⟨⟨List.replicate packetSize 0, 0, 0, true⟩, none, 0⟩

/-- The datagram changes the counter by its increment. -/
def Counted (packetSize : ℕ) (s : RxRun) (msg : List (BitVec 8)) : Prop :=
  (rx packetSize s.rx msg).invalidLost = s.rx.invalidLost + increment s.last (parsed packetSize s msg)

/-- A gap comes only while nothing was counted, the serial number 1 comes behind 0, and the counter
does not wrap. -/
def Countable (lost : ℕ) : Option ℕ → Option ℕ → Prop
  | _, none => lost + 1 < 2 ^ 64
  | none, some _ => True
  | some last, some next =>
    if last = 0 then next = 1
    else if next = (last + 1) % 2 ^ 64 then True
    else if last < next then lost = 0
    else lost + 1 < 2 ^ 64

instance (lost : ℕ) (last next : Option ℕ) : Decidable (Countable lost last next) := by
  cases next with
  | none => unfold Countable; infer_instance
  | some next =>
    cases last with
    | none => unfold Countable; infer_instance
    | some last => unfold Countable; infer_instance

/-- What the receiver remembers of the last serial number. -/
structure RxInv (s : RxRun) : Prop where
  check : s.rx.checkSequence = true
  last : s.rx.lastSerial = s.last.getD 0
  lost : s.rx.invalidLost < 2 ^ 64
  total : s.rx.invalidLost = s.total

/-- Only what the datagram parses to matters. -/
theorem rx_eq : rx packetSize s.rx msg =
    match parsed packetSize s msg with
    | none => (s.rx.fill msg).reject
    | some next => (s.rx.fill msg).accept next := by
  unfold rx parsed serialOf
  by_cases hstart : (s.rx.fill msg).packet.getD 0 0 = 94
  · simp only [hstart, if_true]
  · simp only [hstart, if_false]

theorem countUp_iff {n : ℕ} (h : n < 2 ^ 64) : countUp n = n + 1 ↔ n + 1 < 2 ^ 64 := by
  unfold countUp
  omega

theorem accept_lost {r : Rx} {last : ℕ} (next : ℕ) (hcheck : r.checkSequence = true)
    (hlast : r.lastSerial = last) : (r.accept next).invalidLost =
      if last > 0 ∧ next ≠ (last + 1) % 2 ^ 64 then
        if next > last then next - last - 1 else countUp r.invalidLost
      else r.invalidLost := by
  simp only [Rx.accept, hcheck, hlast, true_and]

/-- One datagram is counted if and only if it is countable. -/
theorem RxInv.counted_iff (h : RxInv s) (msg : List (BitVec 8)) : Counted packetSize s msg ↔
    Countable s.rx.invalidLost s.last (parsed packetSize s msg) := by
  have hlast := h.last
  have hlost := h.lost
  unfold Counted
  rw [rx_eq]
  cases parsed packetSize s msg with
  | none => exact countUp_iff hlost
  | some next =>
    have hfill := accept_lost (r := s.rx.fill msg) next h.check hlast
    simp only
    cases hl : s.last with
    | none =>
      rw [hl, Option.getD_none] at hfill
      rw [hfill]
      simp [increment, Countable, Rx.fill]
    | some last =>
      rw [hl, Option.getD_some] at hfill
      rw [hfill]
      simp only [increment, Countable, Rx.fill]
      by_cases hzero : last = 0
      · subst hzero
        rw [if_neg (by omega), if_pos rfl]
        split_ifs
        all_goals omega
      rw [if_neg hzero]
      by_cases hsucc : next = (last + 1) % 2 ^ 64
      · rw [if_neg fun h => h.2 hsucc, if_pos hsucc, if_pos hsucc]
        exact iff_of_true rfl trivial
      rw [if_pos ⟨Nat.pos_of_ne_zero hzero, hsucc⟩, if_neg hsucc, if_neg hsucc]
      by_cases hgap : last < next
      -- the gap replaces what was counted
      · rw [if_pos hgap, if_pos hgap, if_pos hgap]
        omega
      · rw [if_neg hgap, if_neg hgap, if_neg hgap]
        exact countUp_iff hlost

theorem fresh_inv : RxInv (fresh packetSize) := ⟨rfl, rfl, Nat.two_pow_pos 64, rfl⟩

theorem rx_check : (rx packetSize s.rx msg).checkSequence = s.rx.checkSequence := by
  rw [rx_eq]
  cases parsed packetSize s msg with
  | none => rfl
  | some next => rfl

theorem rx_last (h : s.rx.lastSerial = s.last.getD 0) : (rx packetSize s.rx msg).lastSerial =
    ((parsed packetSize s msg).or s.last).getD 0 := by
  rw [rx_eq]
  cases parsed packetSize s msg with
  | none => exact h
  | some next => rfl

theorem rx_lost (h : s.rx.invalidLost < 2 ^ 64) : (rx packetSize s.rx msg).invalidLost < 2 ^ 64 := by
  have hcount : countUp s.rx.invalidLost < 2 ^ 64 := Nat.mod_lt _ (Nat.two_pow_pos 64)
  rw [rx_eq]
  cases hp : parsed packetSize s msg with
  | none => exact hcount
  | some next =>
    have hnext : next < 2 ^ 64 := by
      unfold parsed serialOf at hp
      split_ifs at hp
      exact parseInput_lt hp
    simp only [Rx.accept]
    split_ifs
    · omega
    · exact hcount
    · exact h

theorem RxInv.step (h : RxInv s)
    (hc : Countable s.rx.invalidLost s.last (parsed packetSize s msg)) :
    RxInv (rxStep packetSize s msg) where
  check := rx_check.trans h.check
  last := rx_last h.last
  lost := rx_lost h.lost
  total := ((h.counted_iff msg).mpr hc).trans (by rw [h.total]; rfl)

/-- In every run of countable datagrams the counter is the sum of the increments, and the next
datagram is counted if and only if it is countable. -/
theorem lost_eq_total (h : Reach (fun s msg s' =>
    Countable s.rx.invalidLost s.last (parsed packetSize s msg) ∧ s' = rxStep packetSize s msg)
      (· = fresh packetSize) s) :
    s.rx.invalidLost = s.total ∧ ∀ msg, Counted packetSize s msg ↔
      Countable s.rx.invalidLost s.last (parsed packetSize s msg) := by
  have hinv : RxInv s := h.invariant (fun _ hs => hs ▸ fresh_inv) fun s msg s' hs hr => by
    rw [hr.2]
    exact hs.step hr.1
  exact ⟨hinv.total, hinv.counted_iff⟩

/-- The datagrams which the condition admits. -/
def rxExec (packetSize : ℕ) (s : RxRun) (msg : List (BitVec 8)) : Option RxRun :=
  if Countable s.rx.invalidLost s.last (parsed packetSize s msg) then some (rxStep packetSize s msg)
  else none

theorem countable_of_rxExec (h : rxExec packetSize s msg = some s') :
    Countable s.rx.invalidLost s.last (parsed packetSize s msg) ∧ s' = rxStep packetSize s msg := by
  unfold rxExec at h
  split_ifs at h with hc
  exact ⟨hc, (Option.some.inj h).symm⟩

/-- The frames 5, 6 and 9, and a datagram that does not parse. -/
theorem lost_eq_total_gap : ∃ s, runs (rxExec 21) (fresh 21)
      [prepareOutput 21 5, prepareOutput 21 6, prepareOutput 21 9, [0]] = some s ∧
    s.total = 3 ∧ s.rx.invalidLost = s.total := by
  have hrun : ((runs (rxExec 21) (fresh 21) [prepareOutput 21 5, prepareOutput 21 6,
      prepareOutput 21 9, [0]]).map RxRun.total) = some 3 := by decide +kernel
  obtain ⟨s, hs, htotal⟩ := Option.map_eq_some_iff.mp hrun
  have hreach : Reach (fun s msg s' => Countable s.rx.invalidLost s.last (parsed 21 s msg) ∧
      s' = rxStep 21 s msg) (· = fresh 21) s :=
    reach_of_runs (fun _ _ _ _ => countable_of_rxExec) (.init rfl) hs
  exact ⟨s, hs, htotal, (lost_eq_total hreach).1⟩

/-- After the frames 1, 3 and 5 one frame is counted of the two that are lost. -/
theorem not_lost_eq_total : ¬ ∀ packetSize s, 20 < packetSize →
    Reach (fun s msg s' => s' = rxStep packetSize s msg) (· = fresh packetSize) s →
      s.rx.invalidLost = s.total := by
  intro h
  have hrun : ((runs (fun s msg => some (rxStep 21 s msg)) (fresh 21) [prepareOutput 21 1,
      prepareOutput 21 3, prepareOutput 21 5]).map fun s => (s.rx.invalidLost, s.total)) =
        some (1, 2) := by decide +kernel
  obtain ⟨s, hs, hval⟩ := Option.map_eq_some_iff.mp hrun
  obtain ⟨hlost, htotal⟩ := Prod.mk.inj hval
  have hreach : Reach (fun s msg s' => s' = rxStep 21 s msg) (· = fresh 21) s :=
    reach_of_runs (fun _ _ _ _ h => (Option.some.inj h).symm) (.init rfl) hs
  have heq := h 21 s (by decide) hreach
  rw [hlost, htotal] at heq
  cases heq

end Libevl.Net
