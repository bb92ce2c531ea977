import Libevl.Comparison
import Libevl.EvlPs

/-!
# The order of evl ps

`compare_info` subtracts 64-bit counters and keeps the low 32 bits of what is
left. Its answers are right for two values when their difference, cut down that
way, is neither zero nor negative, and a list is sorted right when that is so
for all of its values that differ.
-/
namespace Libevl.EvlPs
open ForwardList Comparison

/-- The list is made of these entries. -/
structure Listed (s : State) (L : List ℕ) : Prop where
  nodup : L.Nodup
  path : Path s.next s.threadList L
  count : s.threadNr = L.length

/-- The entries that could be parsed. -/
def parsable (s : State) (L : List ℕ) : List ℕ := L.filter fun ti => (s.info ti).parseOk

/-- The field that is selected, as a number. -/
def sortValue (sortKey : ℕ) (ti : ThreadInfo) : ℤ :=
  match sortField sortKey with
  | 1 => ti.percentCpu
  | 2 => ti.nrInbandsw
  | 8 => ti.nrCtxsw
  | 16 => ti.nrRwakeups
  | 4 => ti.cpuTime
  | _ => ti.pid

/-- The order that is asked for. -/
def InOrder (sortKey : ℕ) (ti tj : ThreadInfo) : Prop :=
  if sortKey &&& sortReverse ≠ 0 then sortValue sortKey tj ≤ sortValue sortKey ti
  else sortValue sortKey ti ≤ sortValue sortKey tj

/-- The comparison is consistent where it is used, and any sort that relies on this leaves the
parsable entries, in the order that is asked for. -/
def SortsRight (sortKey : ℕ) (s : State) (L : List ℕ) : Prop :=
  Consistent (fun l r => compareInfo sortKey (s.info l) (s.info r)) (parsable s L) ∧
    ∀ qsort, Sorts qsort → ∃ L', Listed (sortThreadInfo qsort sortKey s) L' ∧
      L'.Perm (parsable s L) ∧ L'.Pairwise (fun i j => InOrder sortKey (s.info i) (s.info j)) ∧
      (sortThreadInfo qsort sortKey s).info = s.info

/-- Where two values differ, the low 32 bits of their difference are neither zero nor negative. -/
def Spread (sortKey : ℕ) (s : State) (L : List ℕ) : Prop :=
  ∀ i ∈ parsable s L, ∀ j ∈ parsable s L,
    sortValue sortKey (s.info j) < sortValue sortKey (s.info i) →
      0 < (sortValue sortKey (s.info i) - sortValue sortKey (s.info j)) % 2 ^ 32 ∧
        (sortValue sortKey (s.info i) - sortValue sortKey (s.info j)) % 2 ^ 32 < 2 ^ 31

theorem Listed.unique {s : State} {L L' : List ℕ} (h : Listed s L) (h' : Listed s L') : L = L' :=
  (walk_of_path h.path h.count.ge).symm.trans (walk_of_path h'.path h'.count.ge)

section Compare

variable {sortKey : ℕ} {ti tj : ThreadInfo}

/-- The words in between do not matter. -/
theorem int_long_sub (x y : ℤ) : int (long (long x - long y)) = int (x - y) := by
  have hsub : long (long x - long y) = long (x - y) := (Int.sub_bmod x y _).symm
  rw [hsub]
  exact Int.bmod_bmod_of_dvd (by decide)

theorem compareInfo_eq (sortKey : ℕ) (ti tj : ThreadInfo) :
    compareInfo sortKey ti tj =
      if sortKey &&& sortReverse ≠ 0 then int (-int (sortValue sortKey ti - sortValue sortKey tj))
      else int (sortValue sortKey ti - sortValue sortKey tj) := by
  unfold compareInfo sortValue
  generalize sortField sortKey = field
  split <;> simp only [int_long_sub]

/-- The sign of the low 32 bits. -/
theorem int_pos {d : ℤ} : 0 < int d ↔ 0 < d % 2 ^ 32 ∧ d % 2 ^ 32 < 2 ^ 31 := by
  rw [int, Int.bmod_def]
  split_ifs <;> omega

theorem int_neg {d : ℤ} : int d < 0 ↔ 2 ^ 31 ≤ d % 2 ^ 32 := by
  rw [int, Int.bmod_def]
  split_ifs <;> omega

/-- Negation turns the sign around, but for the least `int`. -/
theorem int_neg_int (d : ℤ) : int (-int d) = int (-d) := by
  have h := Int.sub_bmod_bmod (x := 0) (y := d) (n := 2 ^ 32)
  rw [Int.zero_sub, Int.zero_sub] at h
  exact h

/-- The value by which the order that is asked for ascends. -/
def sortRank (sortKey : ℕ) (ti : ThreadInfo) : ℤ :=
  if sortKey &&& sortReverse ≠ 0 then -sortValue sortKey ti else sortValue sortKey ti

theorem compareInfo_rank (sortKey : ℕ) (ti tj : ThreadInfo) :
    compareInfo sortKey ti tj = int (sortRank sortKey ti - sortRank sortKey tj) := by
  rw [compareInfo_eq, sortRank, sortRank]
  split_ifs
  · rw [int_neg_int]
    congr 1
    omega
  · rfl

theorem inOrder_iff : InOrder sortKey ti tj ↔ sortRank sortKey ti ≤ sortRank sortKey tj := by
  unfold InOrder sortRank
  split_ifs
  · exact neg_le_neg_iff.symm
  · exact Iff.rfl

end Compare

section Sorting

variable {sortKey : ℕ} {s : State} {L : List ℕ} {qsort : (ℕ → ℕ → ℤ) → List ℕ → List ℕ}

/-- The condition does not depend on the direction. -/
theorem spread_iff_rank : Spread sortKey s L ↔
    ∀ i ∈ parsable s L, ∀ j ∈ parsable s L,
      sortRank sortKey (s.info j) < sortRank sortKey (s.info i) →
        0 < int (sortRank sortKey (s.info i) - sortRank sortKey (s.info j)) := by
  unfold Spread sortRank
  simp only [int_pos]
  split_ifs
  · constructor
    · intro h i hi j hj hlt
      rw [neg_sub_neg]
      exact h j hj i hi (neg_lt_neg_iff.mp hlt)
    · intro h i hi j hj hlt
      have hneg := h j hj i hi (neg_lt_neg_iff.mpr hlt)
      rwa [neg_sub_neg] at hneg
  · exact Iff.rfl

/-- The entries are linked as the array says. -/
theorem sortThreadInfo_listed (h : Listed s L)
    (hp : (qsort (fun l r => compareInfo sortKey (s.info l) (s.info r)) (parsable s L)).Perm
      (parsable s L)) :
    Listed (sortThreadInfo qsort sortKey s)
      (qsort (fun l r => compareInfo sortKey (s.info l) (s.info r)) (parsable s L)) := by
  have hwalk : walk s.next s.threadNr s.threadList = L := walk_of_path h.path h.count.ge
  unfold sortThreadInfo
  rw [hwalk]
  by_cases hnr : s.threadNr = 0
  · rw [if_pos hnr]
    have hL : L = [] := List.eq_nil_of_length_eq_zero (h.count.symm.trans hnr)
    have hnil : parsable s L = [] := by simp [parsable, hL]
    rw [hnil] at hp ⊢
    rw [hp.eq_nil]
    exact hL ▸ h
  · rw [if_neg hnr]
    by_cases hpos : 0 < (parsable s L).length
    · have hnd := hp.nodup_iff.mpr (h.nodup.filter _)
      have hempty : Path s.next none [] := rfl
      have hlinked := relink_path (P := []) hnd hempty
      rw [show L.filter (fun ti => (s.info ti).parseOk) = parsable s L from rfl, if_pos hpos]
      exact ⟨hnd, hlinked, hp.length_eq.symm⟩
    · rw [show L.filter (fun ti => (s.info ti).parseOk) = parsable s L from rfl, if_neg hpos]
      have hnil : parsable s L = [] := List.eq_nil_of_length_eq_zero (by omega)
      rw [hnil] at hp ⊢
      rw [hp.eq_nil]
      exact ⟨List.nodup_nil, rfl, rfl⟩

theorem sortThreadInfo_info : (sortThreadInfo qsort sortKey s).info = s.info := by
  unfold sortThreadInfo
  dsimp only
  split_ifs <;> rfl

/-- The answers are right when no difference is cut down to something else. -/
theorem Spread.compare (h : Spread sortKey s L) {i j : ℕ} (hi : i ∈ parsable s L)
    (hj : j ∈ parsable s L) :
    (compareInfo sortKey (s.info i) (s.info j) < 0 ↔
      sortRank sortKey (s.info i) < sortRank sortKey (s.info j)) ∧
    (0 < compareInfo sortKey (s.info i) (s.info j) ↔
      sortRank sortKey (s.info j) < sortRank sortKey (s.info i)) := by
  have hspread := spread_iff_rank.mp h
  rw [compareInfo_rank]
  rcases lt_trichotomy (sortRank sortKey (s.info i)) (sortRank sortKey (s.info j)) with
    hlt | heq | hgt
  · have hpos := int_pos.mp (hspread j hj i hi hlt)
    rw [int_pos, int_neg]
    omega
  · rw [heq, sub_self]
    have hzero : int 0 = 0 := rfl
    rw [hzero]
    omega
  · have hpos := hspread i hi j hj hgt
    omega

theorem Spread.sortsRight (h : Spread sortKey s L) (hl : Listed s L) : SortsRight sortKey s L := by
  have hcmp : Consistent (fun l r => compareInfo sortKey (s.info l) (s.info r)) (parsable s L) :=
    .of_key (fun ti => sortRank sortKey (s.info ti)) fun i hi j hj => h.compare hi hj
  refine ⟨hcmp, ?_⟩
  intro qsort hsort
  obtain ⟨hperm, hpair⟩ := hsort _ _ hcmp
  refine ⟨_, sortThreadInfo_listed hl hperm, hperm, ?_, sortThreadInfo_info⟩
  refine hpair.imp_of_mem fun hi hj hle => ?_
  have hnot := mt (h.compare (hperm.subset hi) (hperm.subset hj)).2.mpr hle.not_gt
  exact inOrder_iff.mpr (not_lt.mp hnot)

/-- Where a larger value does not compare as larger, some sort puts it in front. -/
theorem SortsRight.spread (h : SortsRight sortKey s L) (hl : Listed s L) : Spread sortKey s L := by
  obtain ⟨hcmp, hright⟩ := h
  refine spread_iff_rank.mpr fun i hi j hj hlt => ?_
  by_contra hnot
  have hle : compareInfo sortKey (s.info i) (s.info j) ≤ 0 := by
    rw [compareInfo_rank]
    exact not_lt.mp hnot
  have hne : i ≠ j := by
    rintro rfl
    exact lt_irrefl _ hlt
  obtain ⟨qsort, hsort, hsub⟩ := exists_sorts_before hcmp hi hj hne hle
  obtain ⟨L', hl', -, hpair, -⟩ := hright qsort hsort
  have hpath := sortThreadInfo_listed hl (hsort _ _ hcmp).1
  rw [← hl'.unique hpath] at hsub
  have hij := List.pairwise_pair.mp (hpair.sublist hsub)
  exact absurd (inOrder_iff.mp hij) hlt.not_ge

end Sorting

/-- The order is right when the low 32 bits of differences tell the order, and only then. -/
theorem sortThreadInfo_right_iff (sortKey : ℕ) (s : State) (L : List ℕ) (h : Listed s L) :
    SortsRight sortKey s L ↔ Spread sortKey s L :=
  ⟨fun hr => hr.spread h, fun hs => hs.sortsRight h⟩

/-- Two parsed threads, linked one to the other. -/
def twoThreads (isw₀ isw₁ : ℕ) : State where
  info := fun a =>
    if a = 0 then { ThreadInfo.zero "one" with nrInbandsw := isw₀, pid := 10, parseOk := true }
    else { ThreadInfo.zero "two" with nrInbandsw := isw₁, pid := 20, parseOk := true }
  next := fun a => if a = 1 then some 0 else none
  threadList := some 1
  threadNr := 2
  brk := 2
  table := [("one", 0), ("two", 1)]

theorem twoThreads_listed (isw₀ isw₁ : ℕ) : Listed (twoThreads isw₀ isw₁) [1, 0] where
  nodup := by decide
  path := ⟨rfl, rfl, rfl⟩
  count := rfl

theorem sortThreadInfo_right_iff_two : SortsRight 2 (twoThreads 7 300) [1, 0] := by
  refine (sortThreadInfo_right_iff 2 _ _ (twoThreads_listed 7 300)).mpr ?_
  unfold Spread
  decide

/-- With 2³¹ switches against none, the order is the wrong one: each thread compares as less
than the other. -/
theorem halfway_inconsistent :
    Listed (twoThreads (2 ^ 31) 0) [1, 0] ∧
      compareInfo 2 ((twoThreads (2 ^ 31) 0).info 0) ((twoThreads (2 ^ 31) 0).info 1) < 0 ∧
      compareInfo 2 ((twoThreads (2 ^ 31) 0).info 1) ((twoThreads (2 ^ 31) 0).info 0) < 0 ∧
      ¬ SortsRight 2 (twoThreads (2 ^ 31) 0) [1, 0] := by
  refine ⟨twoThreads_listed _ _, by decide, by decide, ?_⟩
  intro h
  have hspread := h.spread (twoThreads_listed _ _)
  have hbad := hspread 0 (by decide) 1 (by decide) (by decide)
  exact absurd hbad (by decide)

end Libevl.EvlPs
