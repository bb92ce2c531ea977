import Mathlib.Algebra.Order.Ring.Int
import Mathlib.Data.Int.Order.Basic
import Mathlib.Data.List.Nodup
import Mathlib.Data.List.Perm.Basic
import Mathlib.Data.Tree.Basic

/-!
# Binary trees seen from a node

A path leads from a subtree up to the root. The in-order walk of the whole tree
is cut by the subtree into what comes before and what comes after, and searching
for a key only means finding the right cut. Left and right are one case with a
side as a parameter.
-/
namespace Libevl.TreePath
open BinaryTree

inductive Side
  | left | right
  deriving DecidableEq, Repr

/-- A side as the direction in which links are indexed. -/
def Side.sign : Side → ℤ
  | left => -1
  | right => 1

def Side.opp : Side → Side
  | left => right
  | right => left

@[simp] theorem Side.opp_opp (d : Side) : d.opp.opp = d := by cases d <;> rfl
@[simp] theorem Side.sign_opp (d : Side) : d.opp.sign = -d.sign := by cases d <;> rfl
@[simp] theorem Side.opp_ne (d : Side) : d.opp ≠ d := by cases d <;> decide

theorem Side.sign_cases (d : Side) : d.sign = 1 ∨ d.sign = -1 := by
  cases d
  · exact .inr rfl
  · exact .inl rfl

@[simp] theorem Side.sign_inj {d e : Side} : d.sign = e.sign ↔ d = e := by
  cases d <;> cases e <;> decide

theorem Side.eq_or_opp (d e : Side) : e = d ∨ e = d.opp := by
  cases d <;> cases e <;> decide

theorem Side.exists_sign {x : ℤ} (h : x = 1 ∨ x = -1) : ∃ d : Side, x = d.sign := by
  rcases h with rfl | rfl
  · exact ⟨.right, rfl⟩
  · exact ⟨.left, rfl⟩

variable {α : Type*}

/-- The node `a` with one child on the side `d` and one on the other. -/
def join (d : Side) (near : BinaryTree α) (a : α) (far : BinaryTree α) : BinaryTree α :=
  match d with
  | .left => node a near far
  | .right => node a far near

theorem join_opp (d : Side) (s : BinaryTree α) (a : α) (t : BinaryTree α) :
    join d.opp s a t = join d t a s := by
  cases d <;> rfl

@[simp] theorem join_ne_nil (d : Side) (s : BinaryTree α) (a : α) (t : BinaryTree α) :
    join d s a t ≠ nil := by
  cases d <;> simp [join]

/-- Every node is a join, on either side. -/
theorem exists_join (d : Side) (a : α) (l r : BinaryTree α) : ∃ s t, node a l r = join d s a t := by
  cases d
  · exact ⟨l, r, rfl⟩
  · exact ⟨r, l, rfl⟩

/-- The in-order walk. -/
def toList : BinaryTree α → List α
  | nil => []
  | node a l r => toList l ++ a :: toList r

@[simp] theorem toList_nil : toList (nil : BinaryTree α) = [] := rfl
@[simp] theorem toList_node (a : α) (l r : BinaryTree α) :
    toList (node a l r) = toList l ++ a :: toList r := rfl

theorem toList_eq_nil {t : BinaryTree α} : toList t = [] ↔ t = nil := by
  cases t <;> simp

theorem length_toList (t : BinaryTree α) : (toList t).length = t.numNodes := by
  induction t with
  | nil => rfl
  | node a l r hl hr =>
    simp only [toList_node, List.length_append, List.length_cons, numNodes, hl, hr]
    omega

theorem join_perm (d : Side) (s : BinaryTree α) (a : α) (t : BinaryTree α) :
    (toList (join d s a t)).Perm (a :: (toList s ++ toList t)) := by
  cases d
  · exact List.perm_middle
  · exact List.perm_middle.trans (List.Perm.cons a List.perm_append_comm)

@[simp] theorem mem_join {d : Side} {s t : BinaryTree α} {a x : α} :
    x ∈ toList (join d s a t) ↔ x = a ∨ x ∈ toList s ∨ x ∈ toList t := by
  simp [(join_perm d s a t).mem_iff]

/-- Right height minus left height. -/
def balance : BinaryTree α → ℤ
  | nil => 0
  | node _ l r => r.height - l.height

/-- The heights of siblings differ by at most one. -/
def Balanced : BinaryTree α → Prop
  | nil => True
  | node a l r => (-1 ≤ balance (node a l r) ∧ balance (node a l r) ≤ 1) ∧ Balanced l ∧ Balanced r

theorem Balanced.range {t : BinaryTree α} (h : Balanced t) : -1 ≤ balance t ∧ balance t ≤ 1 := by
  cases t with
  | nil => simp [balance]
  | node a l r => exact h.1

theorem height_join (d : Side) (s : BinaryTree α) (a : α) (t : BinaryTree α) :
    (join d s a t).height = max s.height t.height + 1 := by
  cases d
  · rfl
  · exact congrArg (· + 1) (max_comm _ _)

theorem balance_join (d : Side) (s : BinaryTree α) (a : α) (t : BinaryTree α) :
    balance (join d s a t) = d.sign * (s.height - t.height) := by
  cases d <;> simp [join, balance, Side.sign]

theorem balanced_join {d : Side} {s t : BinaryTree α} {a : α} :
    Balanced (join d s a t) ↔ (-1 ≤ d.sign * ((s.height : ℤ) - t.height) ∧
      d.sign * ((s.height : ℤ) - t.height) ≤ 1) ∧ Balanced s ∧ Balanced t := by
  rw [← balance_join d s a t]
  cases d
  · rfl
  · exact and_congr_right fun _ => and_comm

theorem height_eq_zero {t : BinaryTree α} : t.height = 0 ↔ t = nil := by
  cases t <;> simp

/-- The walk that goes in the direction of the side `d`. -/
def walk (d : Side) (t : BinaryTree α) : List α :=
  match d with
  | .left => (toList t).reverse
  | .right => toList t

@[simp] theorem walk_nil (d : Side) : walk d (nil : BinaryTree α) = [] := by cases d <;> rfl

theorem walk_join (d : Side) (s : BinaryTree α) (a : α) (t : BinaryTree α) :
    walk d (join d s a t) = walk d t ++ a :: walk d s := by
  cases d <;> simp [walk, join]

theorem mem_walk {d : Side} {t : BinaryTree α} {x : α} : x ∈ walk d t ↔ x ∈ toList t := by
  cases d <;> simp [walk]

/-- The way from a subtree to the root: the side of each parent it hangs on, the parent and its
other child. -/
inductive Path (α : Type*)
  | top
  | step (d : Side) (a : α) (other : BinaryTree α) (rest : Path α)

/-- The whole tree. -/
def Path.plug : Path α → BinaryTree α → BinaryTree α
  | top, t => t
  | step d a other rest, t => rest.plug (join d t a other)

/-- What the walk in the direction `d` meets after the subtree. -/
def Path.after (d : Side) : Path α → List α
  | top => []
  | step e a other rest => if e = d then rest.after d else a :: walk d other ++ rest.after d

/-- The nodes on the way and beside it. -/
def Path.nodes : Path α → List α
  | top => []
  | step _ a other rest => a :: toList other ++ rest.nodes

def Path.length : Path α → ℕ
  | top => 0
  | step _ _ _ rest => rest.length + 1

@[simp] theorem Path.plug_top (t : BinaryTree α) : Path.top.plug t = t := rfl
@[simp] theorem Path.plug_step (d : Side) (a : α) (other t : BinaryTree α) (rest : Path α) :
    (Path.step d a other rest).plug t = rest.plug (join d t a other) := rfl

theorem walk_plug (d : Side) (c : Path α) (t : BinaryTree α) :
    walk d (c.plug t) = (c.after d.opp).reverse ++ walk d t ++ c.after d := by
  have hrev (u : BinaryTree α) : walk d u = (walk d.opp u).reverse := by
    cases d <;> simp [walk, Side.opp]
  induction c generalizing t with
  | top => simp [Path.after]
  | step e a other rest ih =>
    rw [Path.plug_step, ih]
    rcases Side.eq_or_opp d e with rfl | rfl
    · rw [walk_join, Path.after, Path.after, if_pos rfl, if_neg (Side.opp_ne e).symm, hrev other]
      simp
    · rw [← join_opp, Side.opp_opp, walk_join, Path.after, Path.after, if_pos rfl,
        if_neg (Side.opp_ne d)]
      simp

/-- The in-order walk of the whole tree. -/
theorem toList_plug (c : Path α) (t : BinaryTree α) :
    toList (c.plug t) = (c.after .left).reverse ++ toList t ++ c.after .right :=
  walk_plug .right c t

theorem nodes_perm (c : Path α) (t : BinaryTree α) :
    (toList (c.plug t)).Perm (c.nodes ++ toList t) := by
  induction c generalizing t with
  | top => simp [Path.nodes]
  | step d a other rest ih =>
    have hj : (toList (join d t a other)).Perm (a :: toList other ++ toList t) :=
      (join_perm d t a other).trans (List.Perm.cons a List.perm_append_comm)
    refine (ih _).trans ((hj.append_left _).trans ?_)
    rw [Path.nodes, ← List.append_assoc]
    exact List.perm_append_comm.append_right _

/-- The height of the whole tree, from that of the subtree. -/
def Path.height : Path α → ℕ → ℕ
  | top, h => h
  | step _ _ other rest, h => rest.height (max h other.height + 1)

/-- The whole tree is balanced around a subtree of height `h`. -/
def Path.Balanced : Path α → ℕ → Prop
  | top, _ => True
  | step _ _ other rest, h => TreePath.Balanced other ∧ (h ≤ other.height + 1 ∧ other.height ≤ h + 1) ∧
      rest.Balanced (max h other.height + 1)

theorem height_plug (c : Path α) (t : BinaryTree α) : (c.plug t).height = c.height t.height := by
  induction c generalizing t with
  | top => rfl
  | step d a other rest ih => rw [Path.plug_step, ih, height_join, Path.height]

theorem balanced_plug (c : Path α) (t : BinaryTree α) :
    TreePath.Balanced (c.plug t) ↔ c.Balanced t.height ∧ TreePath.Balanced t := by
  induction c generalizing t with
  | top => simp [Path.Balanced]
  | step d a other rest ih =>
    have hd : (-1 ≤ d.sign * ((t.height : ℤ) - other.height) ∧
        d.sign * ((t.height : ℤ) - other.height) ≤ 1) ↔
        t.height ≤ other.height + 1 ∧ other.height ≤ t.height + 1 := by
      rcases d.sign_cases with h | h <;> rw [h] <;> omega
    rw [Path.plug_step, ih, balanced_join, height_join, Path.Balanced, hd]
    tauto

theorem length_nodes (c : Path α) : c.length ≤ c.nodes.length := by
  induction c with
  | top => exact le_rfl
  | step d a other rest ih =>
    simp only [Path.length, Path.nodes, List.length_append, List.length_cons]
    omega

/-- The whole tree is one whole tree with a longer path. -/
theorem exists_path {a : α} {t : BinaryTree α} (h : a ∈ toList t) :
    ∃ (c : Path α) (l r : BinaryTree α), t = c.plug (node a l r) := by
  suffices hs : ∀ (c : Path α) (u : BinaryTree α), a ∈ toList u → t = c.plug u →
      ∃ (c : Path α) (l r : BinaryTree α), t = c.plug (node a l r) from hs .top t h rfl
  intro c u hu hc
  induction u generalizing c with
  | nil => simp at hu
  | node b l r hl hr =>
    simp only [toList_node, List.mem_append, List.mem_cons] at hu
    rcases hu with hu | rfl | hu
    · exact hl (.step .left b r c) hu hc
    · exact ⟨c, l, r, hc⟩
    · exact hr (.step .right b l c) hu hc

/-- The node that the walk of a subtree meets first has no child on the side it comes from. -/
theorem exists_first (d : Side) (c : Path α) {t : BinaryTree α} (h : t ≠ nil) :
    ∃ (c' : Path α) (b : α) (w : BinaryTree α),
      c.plug t = c'.plug (join d.opp nil b w) ∧ (walk d t).head? = some b := by
  induction t generalizing c with
  | nil => exact absurd rfl h
  | node a l r hl hr =>
    have hstep (near far : BinaryTree α) (hj : node a l r = join d.opp near a far)
        (ih : ∀ c : Path α, near ≠ nil → ∃ (c' : Path α) (b : α) (w : BinaryTree α),
          c.plug near = c'.plug (join d.opp nil b w) ∧ (walk d near).head? = some b) :
        ∃ (c' : Path α) (b : α) (w : BinaryTree α),
          c.plug (node a l r) = c'.plug (join d.opp nil b w) ∧
            (walk d (node a l r)).head? = some b := by
      rw [hj, join_opp, walk_join, ← join_opp]
      by_cases hn : near = nil
      · subst hn
        exact ⟨c, a, far, rfl, by simp⟩
      · obtain ⟨c', b, w, hplug, hhead⟩ := ih (.step d.opp a far c) hn
        exact ⟨c', b, w, hplug, by simp [hhead]⟩
    cases d with
    | left => exact hstep r l rfl fun c hn => hr c hn
    | right => exact hstep l r rfl fun c hn => hl c hn

section Locate

/-- The steps of a path agree with the directions that `f` gives. -/
def Path.Follows (f : α → ℤ) : Path α → Prop
  | top => True
  | step d a _ rest => f a = d.sign ∧ rest.Follows f

/-- Where a search ends: at a node that it accepts, or above a missing child. -/
structure Spot (f : α → ℤ) (t : BinaryTree α) (c : Path α) (a : α) (l r : BinaryTree α) : Prop where
  plug : c.plug (node a l r) = t
  follows : c.Follows f
  stop : f a = 0 ∨ ∃ d s, f a = d.sign ∧ node a l r = join d nil a s

variable {f : α → ℤ}

/-- `f` is positive on what lies before and negative on what lies after. -/
theorem Path.Follows.after {t : BinaryTree α} {c : Path α} (h : c.Follows f)
    (hf : (toList (c.plug t)).Pairwise fun x y => f y ≤ f x) :
    (∀ x ∈ c.after .left, 0 < f x) ∧ ∀ x ∈ c.after .right, f x < 0 := by
  induction c generalizing t with
  | top => simp [Path.after]
  | step d a other rest ih =>
    obtain ⟨ha, hrest⟩ := h
    obtain ⟨hl, hr⟩ := ih hrest hf
    rw [Path.plug_step, toList_plug] at hf
    have hin := (List.pairwise_append.mp (List.pairwise_append.mp hf).1).2.1
    cases d
    · refine ⟨by simpa [Path.after] using hl, ?_⟩
      simp only [join, toList_node, List.pairwise_append, List.pairwise_cons] at hin
      simp only [Path.after, reduceCtorEq, if_false, walk, List.cons_append, List.mem_cons,
        List.mem_append]
      have ha' : f a < 0 := by rw [ha]; decide
      rintro x (rfl | hx | hx)
      · exact ha'
      · exact (hin.2.1.1 x hx).trans_lt ha'
      · exact hr x hx
    · refine ⟨?_, by simpa [Path.after] using hr⟩
      simp only [join, toList_node, List.pairwise_append, List.pairwise_cons] at hin
      simp only [Path.after, reduceCtorEq, if_false, walk, List.cons_append, List.mem_cons,
        List.mem_append, List.mem_reverse]
      have ha' : 0 < f a := by rw [ha]; decide
      rintro x (rfl | hx | hx)
      · exact ha'
      · exact ha'.trans_le (hin.2.2 x hx a List.mem_cons_self)
      · exact hl x hx

end Locate

end Libevl.TreePath
