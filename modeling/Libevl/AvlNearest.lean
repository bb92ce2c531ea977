import Libevl.AvlRun

/-!
# Nearest keys

A search that must not miss stops at the last node of a path down, one step away
from where the key belongs. Whatever the shape of the tree and however many keys
are equal, the step taken from there leads to the nearest key.
-/
namespace Libevl.AvlRun
open AvlTree

section Nearest

variable {α κ : Type} [LinearOrder κ]

/-- A listed node with the least key which is not below `k`, if there is one. -/
def Ceiling (key : α → κ) (as : List α) (k : κ) : Option α → Prop
  | none => ∀ x ∈ as, key x < k
  | some a => a ∈ as ∧ k ≤ key a ∧ ∀ x ∈ as, k ≤ key x → key a ≤ key x

/-- A listed node with the largest key which is not above `k`, if there is one. -/
def Floor (key : α → κ) (as : List α) (k : κ) : Option α → Prop
  | none => ∀ x ∈ as, k < key x
  | some a => a ∈ as ∧ key a ≤ k ∧ ∀ x ∈ as, key x ≤ k → key x ≤ key a

variable {key : α → κ} {as pre post : List α} {k : κ} {a : α}

theorem avlCmpSign_eq_zero {l r : κ} : avlCmpSign l r = 0 ↔ l = r := by
  rcases lt_trichotomy l r with h | h | h
  · have hneg := avlCmpSign_neg.mpr h
    constructor
    · intro hz
      omega
    · exact fun heq => absurd heq h.ne
  · simp [avlCmpSign, h]
  · have hpos := avlCmpSign_pos.mpr h
    constructor
    · intro hz
      omega
    · exact fun heq => absurd heq h.ne'

/-- The sign falls along a list which is sorted by its keys. -/
theorem avlCmpSign_antitone {x y : κ} (h : x ≤ y) : avlCmpSign k y ≤ avlCmpSign k x := by
  rcases avlCmpSign_cases k x with hx | hx | hx
  · have hy := avlCmpSign_neg.mpr ((avlCmpSign_neg.mp (hx ▸ neg_one_lt_zero)).trans_le h)
    rcases avlCmpSign_cases k y with hy' | hy' | hy' <;> omega
  · have hnot : ¬ 0 < avlCmpSign k y := by
      rw [avlCmpSign_pos, avlCmpSign_eq_zero.mp hx]
      exact h.not_gt
    omega
  · rcases avlCmpSign_cases k y with hy | hy | hy <;> omega

theorem ceiling_of_eq (ha : a ∈ as) (h : key a = k) : Ceiling key as k (some a) :=
  ⟨ha, h.ge, fun _ _ hx => h.trans_le hx⟩

theorem floor_of_eq (ha : a ∈ as) (h : key a = k) : Floor key as k (some a) :=
  ⟨ha, h.le, fun _ _ hx => hx.trans_eq h.symm⟩

/-- Above a key, the first node is the nearest one. -/
theorem ceiling_of_split (hs : (pre ++ post).Pairwise fun x y => key x ≤ key y)
    (hpre : ∀ p ∈ pre, key p < k) (hpost : ∀ p ∈ post, k < key p) :
    Ceiling key (pre ++ post) k post.head? := by
  cases post with
  | nil =>
    intro x hx
    rw [List.append_nil] at hx
    exact hpre x hx
  | cons a post =>
    obtain ⟨-, hpost', -⟩ := List.pairwise_append.mp hs
    refine ⟨by simp, (hpost a (by simp)).le, ?_⟩
    intro x hx hk
    rcases List.mem_append.mp hx with hx | hx
    · exact absurd (hpre x hx) hk.not_gt
    · rcases List.mem_cons.mp hx with rfl | hx
      · exact le_rfl
      · exact List.rel_of_pairwise_cons hpost' hx

/-- Below a key, the last node is the nearest one. -/
theorem floor_of_split (hs : (pre ++ post).Pairwise fun x y => key x ≤ key y)
    (hpre : ∀ p ∈ pre, key p < k) (hpost : ∀ p ∈ post, k < key p) :
    Floor key (pre ++ post) k pre.getLast? := by
  induction pre using List.reverseRecOn with
  | nil => exact hpost
  | append_singleton pre a _ =>
    obtain ⟨hpre', -, -⟩ := List.pairwise_append.mp hs
    obtain ⟨-, -, hle⟩ := List.pairwise_append.mp hpre'
    rw [List.getLast?_concat]
    refine ⟨by simp, (hpre a (by simp)).le, ?_⟩
    intro x hx hk
    rcases List.mem_append.mp hx with hx | hx
    · rcases List.mem_append.mp hx with hx | hx
      · exact hle x hx a (by simp)
      · rw [List.mem_singleton.mp hx]
    · exact absurd (hpost x hx) hk.not_gt

variable [DecidableEq α] {t : Avl α}

/-- Both searches, in a tree which is sorted by its keys. -/
theorem search_nearest (h : Lists t as) (hs : as.Pairwise fun x y => key x ≤ key y) (k : κ) :
    (∃ r, avlSearchGe t (fun x => avlCmpSign k (key x)) = .ok (r.map .node) ∧
      Ceiling key as k r) ∧
    ∃ r, avlSearchLe t (fun x => avlCmpSign k (key x)) = .ok (r.map .node) ∧
      Floor key as k r := by
  have hmono : as.Pairwise fun x y => avlCmpSign k (key y) ≤ avlCmpSign k (key x) :=
    hs.imp avlCmpSign_antitone
  rcases avlSearchNearest_spec h (fun x => avlCmpSign_cases k (key x)) hmono with
    ⟨a, ha, hz, hrun⟩ | ⟨pre, post, rfl, hpre, hpost, hle, hge⟩
  · have hkey : key a = k := (avlCmpSign_eq_zero.mp hz).symm
    exact ⟨⟨some a, hrun .right, ceiling_of_eq ha hkey⟩, ⟨some a, hrun .left, floor_of_eq ha hkey⟩⟩
  · have hpre' : ∀ p ∈ pre, key p < k := fun p hp => avlCmpSign_pos.mp (hpre p hp)
    have hpost' : ∀ p ∈ post, k < key p := fun p hp => avlCmpSign_neg.mp (hpost p hp)
    exact ⟨⟨_, hge, ceiling_of_split hs hpre' hpost'⟩, ⟨_, hle, floor_of_split hs hpre' hpost'⟩⟩

/-- Searches find the nearest keys, and steps the neighbours, on every tree. -/
theorem nearest_found (h : Lists t as) (hs : as.Pairwise fun x y => key x ≤ key y) :
    (∀ k, ∃ r, avlSearchGe t (fun x => avlCmpSign k (key x)) = .ok (r.map .node) ∧
      Ceiling key as k r) ∧
    (∀ k, ∃ r, avlSearchLe t (fun x => avlCmpSign k (key x)) = .ok (r.map .node) ∧
      Floor key as k r) ∧
    ∀ pre a post, as = pre ++ a :: post →
      avlNext t (.node a) = .ok (post.head?.map .node) ∧
      avlPrev t (.node a) = .ok (pre.getLast?.map .node) := by
  refine ⟨fun k => (search_nearest h hs k).1, fun k => (search_nearest h hs k).2, ?_⟩
  intro pre a post hcut
  rw [hcut] at h
  exact ⟨avlNext_spec h, avlPrev_spec h⟩

end Nearest

/-- Two nodes with one key, behind a third. -/
def twinRun : List (Op ℕ ℕ) := [.insert 0 5, .insert 1 3, .insertBack 2 5]

/-- The search for an absent key, and the step across equal keys. -/
theorem nearest_found_twins : ∃ s : Store ℕ ℕ, Lists s.tree [1, 0, 2] ∧
    (∃ r, avlSearchGe s.tree (fun x => avlCmpSign 4 (s.key x)) = .ok (r.map .node) ∧
      Ceiling s.key [1, 0, 2] 4 r) ∧
    avlNext s.tree (.node 0) = .ok (some (.node 2)) := by
  have hempty : Represents (⟨avlInit ⟨fun _ => ⟨0, 0, none, none, none⟩, none, none, 0, 0⟩,
      fun _ => 0⟩ : Store ℕ ℕ) ⟨[], fun _ => 0⟩ := ⟨avlInit_spec _, rfl, List.Pairwise.nil⟩
  have hadmits : Admits ⟨[], fun _ => 0⟩ twinRun := by decide
  have hrun : ∃ s, runOps true _ twinRun = .ok s ∧ Represents s _ :=
    runOps_represents hempty hadmits
  obtain ⟨s, -, hs⟩ := hrun
  have hsorted := hs.sorted
  rw [← hs.key] at hsorted
  have hfound := nearest_found hs.lists hsorted
  exact ⟨s, hs.lists, hfound.1 4, (hfound.2.2 [1] 0 [2] rfl).1⟩

/-- The neighbours of a range of pages, by their addresses. -/
theorem neighbours_nearest {ext : Heap.HeapExtent} {as : List ℤ} (h : Lists ext.addrTree as)
    (hs : as.Pairwise (· ≤ ·)) (a : ℤ) :
    (∃ r, Heap.findRightNeighbour ext a = .ok r ∧ Ceiling id as a r) ∧
    ∃ r, Heap.findLeftNeighbour ext a = .ok r ∧ Floor id as a r := by
  have hcmp : Heap.compareRangeByAddr a = fun x => avlCmpSign a (id x) :=
    funext (compareRangeByAddr_eq a)
  have hs' : as.Pairwise fun x y => id x ≤ id y := hs
  obtain ⟨⟨r, hge, hr⟩, ⟨l, hle, hl⟩⟩ := search_nearest h hs' a
  rw [← hcmp] at hge hle
  refine ⟨⟨r, ?_, hr⟩, ⟨l, ?_, hl⟩⟩
  · rw [Heap.findRightNeighbour, hge]
    cases r <;> rfl
  · rw [Heap.findLeftNeighbour, hle]
    cases l <;> rfl

end Libevl.AvlRun
