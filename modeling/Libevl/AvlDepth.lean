import Libevl.AvlRun
import Mathlib.Data.Nat.Fib.Basic

/-!
# How far the loops go

A balanced tree of some height has as many nodes as a Fibonacci number says. The
loops that search a key, or a neighbour, follow one path, so they make at most as
many turns as the tree is high.
-/
namespace Libevl.TreePath
open BinaryTree

variable {α : Type*}

/-- The least number of nodes in a balanced tree. -/
theorem Balanced.fib_le {s : BinaryTree α} (h : Balanced s) :
    Nat.fib (s.height + 2) ≤ s.numNodes + 1 := by
  induction s with
  | nil => simp
  | node a l r ihl ihr =>
    obtain ⟨⟨hlo, hhi⟩, hl, hr⟩ := h
    have hl := ihl hl
    have hr := ihr hr
    change -1 ≤ (r.height : ℤ) - l.height at hlo
    change (r.height : ℤ) - l.height ≤ 1 at hhi
    have hadd : Nat.fib ((node a l r).height + 2) =
        Nat.fib (max l.height r.height + 1) + Nat.fib (max l.height r.height + 2) := by
      rw [BinaryTree.height, Nat.add_right_comm, Nat.fib_add_two]
    rw [hadd, numNodes]
    rcases le_total l.height r.height with hle | hle
    · have hmono : Nat.fib (r.height + 1) ≤ Nat.fib (l.height + 2) := Nat.fib_mono (by omega)
      rw [max_eq_right hle]
      omega
    · have hmono : Nat.fib (l.height + 1) ≤ Nat.fib (r.height + 2) := Nat.fib_mono (by omega)
      rw [max_eq_left hle]
      omega

/-- A path and what is below it fit in the height. -/
theorem Path.length_add_le (c : Path α) (h : ℕ) : c.length + h ≤ c.height h := by
  induction c generalizing h with
  | top => exact (Nat.zero_add h).le
  | step d a other rest ih =>
    have hrest := ih (max h other.height + 1)
    have hle := le_max_left h other.height
    rw [Path.length, Path.height]
    omega

end Libevl.TreePath

namespace Libevl.AvlTree
open BinaryTree TreePath

variable {α : Type} {t : Avl α} {s : BinaryTree α} {cmp : α → ℤ} {dir : ℤ} {n : ℕ}

/-- A search whose loop makes at most `limit` turns. -/
def searchWithin (limit : ℕ) (t : Avl α) (cmp : α → ℤ) (dir : ℤ) :
    Except Fault (Option (Ref α) × ℤ) :=
  match t.top with
  | none => .ok (none, 1)
  | some holder => do
    let (holder, delta) ← searchLoop t cmp dir limit holder
    return (some holder, delta)

/-- `avl_inorder` where each loop makes at most `limit` turns. -/
def inorderWithin [DecidableEq α] (limit : ℕ) (t : Avl α) (holder : Ref α) (dir : ℤ) :
    Except Fault (Option (Ref α)) :=
  match (t.cell holder).link dir with
  | some child => some <$> descend t (avlOpposite dir) limit child
  | none => climb t dir limit holder

/-- A loop that ended needs no more turns. -/
theorem searchLoop_mono {x : Ref α} {r : Ref α × ℤ} (h : searchLoop t cmp dir n x = .ok r) {m : ℕ}
    (hm : n ≤ m) : searchLoop t cmp dir m x = .ok r := by
  induction n generalizing x m with
  | zero => cases h
  | succ n ih =>
    obtain ⟨m, rfl⟩ : ∃ k, m = k + 1 := ⟨m - 1, by omega⟩
    cases x with
    | anchor => cases h
    | node a =>
      rw [searchLoop] at h ⊢
      by_cases hz : orElse (cmp a) dir = 0
      · simpa [hz] using h
      · simp only [hz, if_false] at h ⊢
        cases hlink : (t.cell (.node a)).link (orElse (cmp a) dir) with
        | none => simpa [hlink] using h
        | some next =>
          simp only [hlink] at h ⊢
          exact ih h (Nat.le_of_succ_le_succ hm)

theorem descend_mono {x y : Ref α} (h : descend t dir n x = .ok y) {m : ℕ} (hm : n ≤ m) :
    descend t dir m x = .ok y := by
  induction n generalizing x m with
  | zero => cases h
  | succ n ih =>
    obtain ⟨m, rfl⟩ : ∃ k, m = k + 1 := ⟨m - 1, by omega⟩
    rw [descend] at h ⊢
    cases hlink : (t.cell x).link dir with
    | none => simpa [hlink] using h
    | some next =>
      simp only [hlink] at h ⊢
      exact ih h (Nat.le_of_succ_le_succ hm)

theorem climb_mono [DecidableEq α] {x : Ref α} {y : Option (Ref α)} (h : climb t dir n x = .ok y)
    {m : ℕ} (hm : n ≤ m) : climb t dir m x = .ok y := by
  induction n generalizing x m with
  | zero => cases h
  | succ n ih =>
    obtain ⟨m, rfl⟩ : ∃ k, m = k + 1 := ⟨m - 1, by omega⟩
    rw [climb] at h ⊢
    cases hup : (t.cell x).up with
    | none =>
      rw [hup] at h
      cases h
    | some next =>
      simp only [hup, deref_some, ok_bind] at h ⊢
      split_ifs at h ⊢ with hanchor htype
      · exact h
      · exact h
      · exact ih h (Nat.le_of_succ_le_succ hm)

/-- The search of a key follows a path down. -/
theorem Rep.search_within (h : Rep t s) (hcmp : ∀ x, cmp x = -1 ∨ cmp x = 0 ∨ cmp x = 1)
    (hdir : dir = 0 ∨ dir = 1) : searchWithin t.height t cmp dir = search t cmp dir := by
  rw [searchWithin, search]
  cases s with
  | nil => simp [h.top]
  | node a l r =>
    obtain ⟨c, b, l', r', -, hrun⟩ := searchLoop_spec (c := .top) hcmp hdir t.height rfl h.sub
      trivial h.height.ge
    have hfuel : t.height ≤ t.fuel := by
      rw [h.height, Avl.fuel, h.count]
      have hle := height_le_numNodes (node a l r)
      omega
    simp only [h.top, root_node, hrun, searchLoop_mono hrun hfuel]

/-- The search of a neighbour goes down on one side, or up. -/
theorem Rep.inorder_within [DecidableEq α] (h : Rep t s) {a : α} (ha : a ∈ toList s) (d : Side) :
    inorderWithin t.height t (.node a) d.sign = avlInorder t (.node a) d.sign := by
  obtain ⟨c, l, r, rfl⟩ := exists_path ha
  obtain ⟨near, far, hj⟩ := exists_join d a l r
  obtain ⟨hc, hsub⟩ := h.focus (congrArg c.plug hj)
  obtain ⟨ca, hnear, -⟩ := sub_join.mp hsub
  have hheight : t.height = c.height (join d near a far).height := by
    rw [h.height, hj, height_plug]
  have hpath := c.length_add_le (join d near a far).height
  have hfuel : t.height ≤ t.fuel := by
    rw [h.height, Avl.fuel, h.count]
    have hle := height_le_numNodes (c.plug (node a l r))
    omega
  rw [height_join] at hpath hheight
  rw [inorderWithin, avlInorder]
  cases near with
  | nil =>
    have hrun := climb_spec (d := d) t.height (x := .node a) (by omega)
      (by rw [ca]; exact ⟨holder_type .., holder_up ..⟩) hc
    simp only [ca, holder_near, root_nil, hrun, climb_mono hrun hfuel]
  | node b l' r' =>
    obtain ⟨y, -, hrun⟩ := descend_spec (d := d) t.height (by omega) rfl hnear
    simp only [ca, holder_near, root_node, avlOpposite, hrun, descend_mono hrun hfuel]

end Libevl.AvlTree

namespace Libevl.AvlRun
open TreePath AvlTree

variable {α κ : Type} [DecidableEq α] [LinearOrder κ]

/-- In every run the height is bounded by the number of nodes as in a Fibonacci tree, and no search
of a key or a neighbour makes more turns than the height. -/
theorem searches_within_height (debug : Bool) (t : Avl α) (key : α → κ) (ops : List (Op α κ))
    (ha : Admits ⟨[], key⟩ ops) :
    ∃ s, runOps debug ⟨avlInit t, key⟩ ops = .ok s ∧
      Nat.fib (s.tree.height + 2) ≤ s.tree.count + 1 ∧
      (∀ cmp : α → ℤ, (∀ x, cmp x = -1 ∨ cmp x = 0 ∨ cmp x = 1) → ∀ dir, dir = 0 ∨ dir = 1 →
        searchWithin s.tree.height s.tree cmp dir = search s.tree cmp dir) ∧
      ∀ a ∈ (ops.foldl Op.edit ⟨[], key⟩).nodes, ∀ d : Side,
        inorderWithin s.tree.height s.tree (.node a) d.sign =
          avlInorder s.tree (.node a) d.sign := by
  have hinit : Represents ⟨avlInit t, key⟩ ⟨[], key⟩ := ⟨avlInit_spec t, rfl, List.Pairwise.nil⟩
  obtain ⟨s, hrun, hrep⟩ : ∃ s, runOps debug ⟨avlInit t, key⟩ ops = .ok s ∧ Represents s _ :=
    runOps_represents hinit ha
  obtain ⟨u, hu, hnodes⟩ := hrep.lists
  refine ⟨s, hrun, ?_, fun cmp hcmp dir hdir => hu.search_within hcmp hdir, fun a hmem d => ?_⟩
  · rw [hu.height, hu.count]
    exact hu.balanced.fib_le
  · exact hu.inorder_within (hnodes ▸ hmem) d

theorem searches_within_height_mixed : ∃ s : Store ℕ ℕ,
    runOps true ⟨avlInit ⟨fun _ => ⟨0, 0, none, none, none⟩, none, none, 0, 0⟩, fun _ => 0⟩
        mixedRun = .ok s ∧
      Nat.fib (s.tree.height + 2) ≤ s.tree.count + 1 := by
  obtain ⟨s, hrun, hfib, -⟩ := searches_within_height true
    ⟨fun _ => ⟨0, 0, none, none, none⟩, none, none, 0, 0⟩ (fun _ : ℕ => 0) mixedRun (by decide)
  exact ⟨s, hrun, hfib⟩

end Libevl.AvlRun
