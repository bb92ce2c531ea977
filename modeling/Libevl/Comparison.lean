import Mathlib.Data.List.Basic
import Mathlib.Algebra.Order.Ring.Int

/-!
# Sorting by a comparison function

The comparison function of a sort answers with an integer, of which only the
sign matters. A sort promises nothing unless the answers are those of a total
preorder, and where two elements compare as equal it may leave them in either
order.
-/
namespace Libevl.Comparison

variable {α : Type*}

/-- On these elements the answers are those of a total preorder. -/
structure Consistent (cmp : α → α → ℤ) (L : List α) : Prop where
  swap : ∀ x ∈ L, ∀ y ∈ L, cmp x y < 0 ↔ 0 < cmp y x
  trans : ∀ x ∈ L, ∀ y ∈ L, ∀ z ∈ L, cmp x y ≤ 0 → cmp y z ≤ 0 → cmp x z ≤ 0

/-- What a sort promises. -/
def Sorts (sort : (α → α → ℤ) → List α → List α) : Prop :=
  ∀ cmp L, Consistent cmp L →
    (sort cmp L).Perm L ∧ (sort cmp L).Pairwise fun x y => cmp x y ≤ 0

variable {cmp : α → α → ℤ} {L : List α} {a b : α}

/-- A comparison by a key. -/
theorem Consistent.of_key {κ : Type*} [LinearOrder κ] (key : α → κ)
    (h : ∀ x ∈ L, ∀ y ∈ L, (cmp x y < 0 ↔ key x < key y) ∧ (0 < cmp x y ↔ key y < key x)) :
    Consistent cmp L := by
  constructor
  · intro x hx y hy
    rw [(h x hx y hy).1, (h y hy x hx).2]
  · intro x hx y hy z hz hxy hyz
    have hxy' := mt (h x hx y hy).2.mpr hxy.not_gt
    have hyz' := mt (h y hy z hz).2.mpr hyz.not_gt
    have hxz := mt (h x hx z hz).2.mp ((not_lt.mp hxy').trans (not_lt.mp hyz')).not_gt
    exact not_lt.mp hxz

section Front

variable [DecidableEq α]

/-- The order of the answers, with all other elements behind. -/
def leOn (cmp : α → α → ℤ) (L : List α) (x y : α) : Bool :=
  if x ∈ L then y ∉ L || cmp x y ≤ 0 else y ∉ L

theorem leOn_of_mem (ha : a ∈ L) (hb : b ∈ L) : leOn cmp L a b = true ↔ cmp a b ≤ 0 := by
  simp [leOn, ha, hb]

theorem leOn_total (h : Consistent cmp L) (x y : α) : (leOn cmp L x y || leOn cmp L y x) = true := by
  by_cases hx : x ∈ L <;> by_cases hy : y ∈ L
  · have hswap := h.swap y hy x hx
    simp only [leOn, hx, hy, if_true, Bool.or_eq_true, decide_eq_true_eq, not_true_eq_false,
      false_or]
    omega
  · simp [leOn, hx, hy]
  · simp [leOn, hx, hy]
  · simp [leOn, hx, hy]

theorem leOn_trans (h : Consistent cmp L) (x y z : α) (hxy : leOn cmp L x y = true)
    (hyz : leOn cmp L y z = true) : leOn cmp L x z = true := by
  by_cases hx : x ∈ L <;> by_cases hz : z ∈ L
  · by_cases hy : y ∈ L
    · rw [leOn_of_mem hx hy] at hxy
      rw [leOn_of_mem hy hz] at hyz
      exact (leOn_of_mem hx hz).mpr (h.trans x hx y hy z hz hxy hyz)
    · simp [leOn, hy, hz] at hyz
  · simp [leOn, hx, hz]
  · by_cases hy : y ∈ L
    · simp [leOn, hx, hy] at hxy
    · simp [leOn, hy, hz] at hyz
  · simp [leOn, hx, hz]

/-- A stable sort which first brings two elements to the front. -/
def sortFront (a b : α) (cmp : α → α → ℤ) (L : List α) : List α :=
  if a ∈ L ∧ b ∈ L.erase a then (a :: b :: (L.erase a).erase b).mergeSort (leOn cmp L)
  else L.mergeSort (leOn cmp L)

theorem sortFront_sorts (a b : α) : Sorts (sortFront a b) := by
  intro cmp L h
  have hsorted (l : List α) (hl : l.Perm L) : (l.mergeSort (leOn cmp L)).Perm L ∧
      (l.mergeSort (leOn cmp L)).Pairwise fun x y => cmp x y ≤ 0 := by
    have hperm := (List.mergeSort_perm l (leOn cmp L)).trans hl
    refine ⟨hperm, ?_⟩
    have hpair := List.pairwise_mergeSort (leOn_trans h) (leOn_total h) l
    refine hpair.imp_of_mem fun hx hy hxy => ?_
    exact (leOn_of_mem (hperm.subset hx) (hperm.subset hy)).mp hxy
  unfold sortFront
  split_ifs with hab
  · have hfront := ((List.perm_cons_erase hab.2).cons a).symm
    exact hsorted _ (hfront.trans (List.perm_cons_erase hab.1).symm)
  · exact hsorted L (.refl L)

/-- Two elements may end up in any order that the comparison does not exclude. -/
theorem exists_sorts_before (h : Consistent cmp L) (ha : a ∈ L) (hb : b ∈ L) (hne : a ≠ b)
    (hab : cmp a b ≤ 0) : ∃ sort, Sorts sort ∧ [a, b].Sublist (sort cmp L) := by
  refine ⟨sortFront a b, sortFront_sorts a b, ?_⟩
  have hb' : b ∈ L.erase a := (List.mem_erase_of_ne hne.symm).mpr hb
  rw [sortFront, if_pos ⟨ha, hb'⟩]
  apply List.pair_sublist_mergeSort (leOn_trans h) (leOn_total h)
  · exact (leOn_of_mem ha hb).mpr hab
  · simp

end Front

end Libevl.Comparison
