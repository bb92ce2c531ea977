import Libevl.AvlDelete
import Libevl.HeapRange
import Mathlib.Data.List.Induction
import Mathlib.Data.List.TakeWhile
import Mathlib.Order.Basic

/-!
# Runs of tree operations

The callers link, exchange and unlink nodes one after the other. A listing says
which nodes are linked and in what order an in-order walk must find them. Every
run whose operations meet the conditions of the callers succeeds, and the memory
makes up the listing after each of them.
-/
namespace Libevl.AvlRun
open AvlTree BinaryTree TreePath

/-- `avl_cmp_sign`. -/
def avlCmpSign {κ : Type*} [LinearOrder κ] (l r : κ) : ℤ :=
  (if r < l then 1 else 0) - (if l < r then 1 else 0)

section Compare

variable {κ : Type*} [LinearOrder κ] {l r : κ}

theorem avlCmpSign_cases (l r : κ) :
    avlCmpSign l r = -1 ∨ avlCmpSign l r = 0 ∨ avlCmpSign l r = 1 := by
  unfold avlCmpSign
  split_ifs <;> simp

theorem avlCmpSign_pos : 0 < avlCmpSign l r ↔ r < l := by
  unfold avlCmpSign
  split_ifs with h₁ h₂ h₂
  · exact absurd h₁ h₂.asymm
  · simp [h₁]
  · simp [h₁]
  · simp [h₁]

theorem avlCmpSign_neg : avlCmpSign l r < 0 ↔ l < r := by
  unfold avlCmpSign
  split_ifs with h₁ h₂ h₂
  · exact absurd h₁ h₂.asymm
  · simp [h₂]
  · simp [h₂]
  · simp [h₂]

end Compare

/-- Addresses are compared as numbers. -/
theorem compareRangeByAddr_eq (l r : ℤ) : Heap.compareRangeByAddr l r = avlCmpSign l r := by
  unfold Heap.compareRangeByAddr avlCmpSign
  rcases lt_trichotomy l r with h | h | h
  · rw [Int.sign_eq_neg_one_of_neg (by omega), if_neg (by omega), if_pos h]
    rfl
  · simp [h]
  · rw [Int.sign_eq_one_of_pos (by omega), if_pos h, if_neg (by omega)]
    rfl

/-- Sizes are compared as numbers too, as long as their difference is a `long`. -/
theorem compareRangeBySize_eq {ext : Heap.HeapExtent} {n : ℕ} {r : ℤ} (hn : n < 2 ^ 63)
    (hr : ext.size r < 2 ^ 63) :
    Heap.compareRangeBySize ext n r = avlCmpSign (n : ℤ) (ext.size r) := by
  rw [Heap.compareRangeBySize_eq hn hr]
  exact compareRangeByAddr_eq _ _

variable {α κ : Type} [DecidableEq α] [LinearOrder κ]

/-- A tree in memory, with the keys of all nodes. -/
structure Store (α κ : Type) where
  tree : Avl α
  key : α → κ

/-- An operation. A node is initialized with its key before it is linked. -/
inductive Op (α κ : Type)
  | insert (x : α) (k : κ)
  | insertBack (x : α) (k : κ)
  | prepend (x : α) (k : κ)
  | replace (a x : α) (k : κ)
  | delete (a : α)
  deriving DecidableEq, Repr

/-- `ops->cmp`, of the node `x` with a linked one. -/
def compare (key : α → κ) (x y : α) : ℤ := avlCmpSign (key x) (key y)

/-- What the code does. -/
def Op.run (debug : Bool) (s : Store α κ) : Op α κ → Except Fault (Store α κ)
  | .insert x k => do
    let key := Function.update s.key x k
    let t := avlhInit s.tree (.node x)
    return ⟨← avlInsert debug t (.node x) (compare key x), key⟩
  | .insertBack x k => do
    let key := Function.update s.key x k
    let t := avlhInit s.tree (.node x)
    return ⟨← avlInsertBack t (.node x) (compare key x), key⟩
  | .prepend x k => do
    let key := Function.update s.key x k
    let t := avlhInit s.tree (.node x)
    return ⟨← avlPrepend debug t (.node x) (compare key x), key⟩
  | .replace a x k => do
    let key := Function.update s.key x k
    return ⟨← avlReplace debug s.tree (.node a) (.node x) (compare key x), key⟩
  | .delete a => return { s with tree := ← avlDelete s.tree (.node a) }

/-- A sequence of operations. -/
def runOps (debug : Bool) : Store α κ → List (Op α κ) → Except Fault (Store α κ)
  | s, [] => .ok s
  | s, op :: ops => do
    let s ← op.run debug s
    runOps debug s ops

/-- The linked nodes, in the order in which a walk must find them. -/
structure Listing (α κ : Type) where
  nodes : List α
  key : α → κ

/-- The listed nodes on both sides of `a`. -/
def Listing.before (L : Listing α κ) (a : α) : List α := L.nodes.takeWhile (· ≠ a)
def Listing.behind (L : Listing α κ) (a : α) : List α := (L.nodes.dropWhile (· ≠ a)).tail

/-- What an operation means: a new node goes in front of the first larger key, and so behind
all of its equals. -/
def Op.edit (L : Listing α κ) : Op α κ → Listing α κ
  | .insert x k | .insertBack x k =>
    ⟨L.nodes.takeWhile (L.key · ≤ k) ++ x :: L.nodes.dropWhile (L.key · ≤ k),
      Function.update L.key x k⟩
  | .prepend x k => ⟨x :: L.nodes, Function.update L.key x k⟩
  | .replace a x k => ⟨L.before a ++ x :: L.behind a, Function.update L.key x k⟩
  | .delete a => { L with nodes := L.nodes.erase a }

/-- The conditions of the callers. -/
def Op.Admissible (L : Listing α κ) : Op α κ → Prop
  | .insert x k => x ∉ L.nodes ∧ ∀ y ∈ L.nodes, L.key y ≠ k
  | .insertBack x _ => x ∉ L.nodes
  | .prepend x k => x ∉ L.nodes ∧ ∀ y ∈ L.nodes, k < L.key y
  | .replace a x k => a ∈ L.nodes ∧ x ∉ L.nodes ∧ (∀ p ∈ (L.before a).getLast?, L.key p ≤ k) ∧
      ∀ n ∈ (L.behind a).head?, k ≤ L.key n
  | .delete a => a ∈ L.nodes

instance (L : Listing α κ) : (op : Op α κ) → Decidable (op.Admissible L)
  | .insert .. => inferInstanceAs (Decidable (_ ∧ _))
  | .insertBack x _ => inferInstanceAs (Decidable (x ∉ L.nodes))
  | .prepend .. => inferInstanceAs (Decidable (_ ∧ _))
  | .replace .. => inferInstanceAs (Decidable (_ ∧ _))
  | .delete a => inferInstanceAs (Decidable (a ∈ L.nodes))

/-- A sequence of operations each of which meets the conditions. -/
def Admits : Listing α κ → List (Op α κ) → Prop
  | _, [] => True
  | L, op :: ops => op.Admissible L ∧ Admits (op.edit L) ops

instance decidableAdmits : (L : Listing α κ) → (ops : List (Op α κ)) → Decidable (Admits L ops)
  | _, [] => inferInstanceAs (Decidable True)
  | L, op :: ops =>
    have := decidableAdmits (op.edit L) ops
    inferInstanceAs (Decidable (_ ∧ _))

/-- The memory makes up a balanced tree whose in-order walk is the listing, in key order. -/
structure Represents (s : Store α κ) (L : Listing α κ) : Prop where
  lists : Lists s.tree L.nodes
  key : s.key = L.key
  sorted : L.nodes.Pairwise fun x y => L.key x ≤ L.key y

section Order

variable {key : α → κ} {x : α} {k : κ} {pre post as : List α}

omit [DecidableEq α] [LinearOrder κ] in
/-- A test which is met by a prefix only fails from where the prefix ends. -/
theorem not_of_mem_dropWhile {p : α → Bool} (h : as.Pairwise fun x y => p y → p x) {y : α}
    (hy : y ∈ as.dropWhile p) : p y = false := by
  induction as with
  | nil => simp at hy
  | cons a as ih =>
    obtain ⟨ha, has⟩ := List.pairwise_cons.mp h
    by_cases hp : p a
    · rw [List.dropWhile_cons_of_pos hp] at hy
      exact ih has hy
    · rw [List.dropWhile_cons_of_neg hp] at hy
      rcases List.mem_cons.mp hy with rfl | hy
      · simpa using hp
      · by_contra hy'
        exact hp (ha y hy (by simpa using hy'))

omit [DecidableEq α] in
/-- The first larger key cuts a listing in two. -/
theorem split_at_key (hs : as.Pairwise fun x y => key x ≤ key y) (k : κ) :
    (∀ y ∈ as.takeWhile (key · ≤ k), key y ≤ k) ∧ ∀ y ∈ as.dropWhile (key · ≤ k), k < key y := by
  constructor
  · intro y hy
    simpa using List.mem_takeWhile_imp hy
  · intro y hy
    have h : as.Pairwise fun x y => decide (key y ≤ k) → decide (key x ≤ k) :=
      hs.imp fun hxy hy => by simpa using hxy.trans (by simpa using hy)
    simpa using not_of_mem_dropWhile h hy

/-- A node put where its key belongs keeps the order. -/
theorem sorted_between (hs : (pre ++ post).Pairwise fun x y => key x ≤ key y)
    (hx : x ∉ pre ++ post) (hpre : ∀ p ∈ pre, key p ≤ k) (hpost : ∀ p ∈ post, k ≤ key p) :
    (pre ++ x :: post).Pairwise fun y z => Function.update key x k y ≤ Function.update key x k z := by
  have hne {y : α} (hy : y ∈ pre ++ post) : Function.update key x k y = key y := by
    refine Function.update_of_ne ?_ ..
    rintro rfl
    exact hx hy
  have hs' : (pre ++ post).Pairwise fun y z =>
      Function.update key x k y ≤ Function.update key x k z :=
    hs.imp_of_mem fun hy hz h => by rwa [hne hy, hne hz]
  obtain ⟨h₁, h₂, h₃⟩ := List.pairwise_append.mp hs'
  refine List.pairwise_append.mpr ⟨h₁, List.pairwise_cons.mpr ⟨fun z hz => ?_, h₂⟩, ?_⟩
  · rw [Function.update_self, hne (List.mem_append_right _ hz)]
    exact hpost z hz
  · intro y hy z hz
    rcases List.mem_cons.mp hz with rfl | hz
    · rw [Function.update_self, hne (List.mem_append_left _ hy)]
      exact hpre y hy
    · exact h₃ y hy z hz

omit [DecidableEq α] in
/-- The last node of a sorted list bounds it. -/
theorem le_of_getLast (hs : pre.Pairwise fun x y => key x ≤ key y)
    (h : ∀ p ∈ pre.getLast?, key p ≤ k) : ∀ p ∈ pre, key p ≤ k := by
  induction pre using List.reverseRecOn with
  | nil => simp
  | append_singleton pre a _ =>
    have ha : key a ≤ k := h a (by simp)
    intro p hp
    rcases List.mem_append.mp hp with hp | hp
    · exact ((List.pairwise_append.mp hs).2.2 p hp a (by simp)).trans ha
    · rwa [List.mem_singleton.mp hp]

omit [DecidableEq α] in
/-- The first one bounds it from below. -/
theorem ge_of_head (hs : post.Pairwise fun x y => key x ≤ key y)
    (h : ∀ n ∈ post.head?, k ≤ key n) : ∀ p ∈ post, k ≤ key p := by
  cases post with
  | nil => simp
  | cons a post =>
    have ha : k ≤ key a := h a rfl
    intro p hp
    rcases List.mem_cons.mp hp with rfl | hp
    · exact ha
    · exact ha.trans ((List.pairwise_cons.mp hs).1 p hp)

omit [DecidableEq α] in
/-- The comparison of a new node sees its own key and the old keys of the others. -/
theorem compare_update [DecidableEq α] {y : α} (hy : y ≠ x) :
    compare (Function.update key x k) x y = avlCmpSign k (key y) := by
  rw [compare, Function.update_self, Function.update_of_ne hy]

end Order

section Step

variable {s : Store α κ} {L : Listing α κ} {debug : Bool} {x a : α} {k : κ}

theorem split_at_mem {as : List α} (ha : a ∈ as) :
    as = as.takeWhile (· ≠ a) ++ a :: (as.dropWhile (· ≠ a)).tail := by
  induction as with
  | nil => simp at ha
  | cons b as ih =>
    by_cases hb : b = a
    · simp [hb]
    · have has := ih ((List.mem_cons.mp ha).resolve_left (Ne.symm hb))
      simpa [List.takeWhile_cons, List.dropWhile_cons, hb] using has

omit [LinearOrder κ] in
theorem Listing.split (ha : a ∈ L.nodes) : L.nodes = L.before a ++ a :: L.behind a :=
  split_at_mem ha

omit [DecidableEq α] in
theorem compare_cases (key : α → κ) (x y : α) :
    compare key x y = -1 ∨ compare key x y = 0 ∨ compare key x y = 1 :=
  avlCmpSign_cases _ _

theorem Represents.compare_eq (h : Represents s L) (hx : x ∉ L.nodes) {y : α} (hy : y ∈ L.nodes) :
    compare (Function.update s.key x k) x y = avlCmpSign k (L.key y) := by
  rw [h.key]
  refine compare_update ?_
  rintro rfl
  exact hx hy

/-- A node with its key has been put between the smaller and the larger ones. -/
theorem Represents.place {t : Avl α} {pre post : List α} (h : Represents s L)
    (hlists : Lists t (pre ++ x :: post)) (hx : x ∉ pre ++ post)
    (hs : (pre ++ post).Pairwise fun y z => L.key y ≤ L.key z)
    (hpre : ∀ p ∈ pre, L.key p ≤ k) (hpost : ∀ p ∈ post, k ≤ L.key p) :
    Represents ⟨t, Function.update s.key x k⟩
      ⟨pre ++ x :: post, Function.update L.key x k⟩ where
  lists := hlists
  key := by rw [h.key]
  sorted := sorted_between hs hx hpre hpost

/-- Where `avl_insert` and `avl_insert_back` put a key, and what they compare on both sides. -/
theorem Represents.cut (h : Represents s L) (hx : x ∉ L.nodes) (k : κ) :
    ∃ pre post, L.nodes = pre ++ post ∧
      (∀ p ∈ pre, L.key p ≤ k ∧
        compare (Function.update s.key x k) x p = avlCmpSign k (L.key p)) ∧
      (∀ p ∈ post, compare (Function.update s.key x k) x p < 0) ∧
      ∀ t, Lists t (pre ++ x :: post) →
        Represents ⟨t, Function.update s.key x k⟩ ((Op.insertBack x k).edit L) := by
  obtain ⟨hle, hlt⟩ := split_at_key h.sorted k
  have hcut := (List.takeWhile_append_dropWhile (p := (L.key · ≤ k)) (l := L.nodes)).symm
  have hs := h.sorted
  have hx' := hx
  rw [hcut] at hs hx'
  refine ⟨_, _, hcut, fun p hp => ⟨hle p hp, ?_⟩, fun p hp => ?_, fun t ht => ?_⟩
  · exact h.compare_eq hx (hcut ▸ List.mem_append_left _ hp)
  · rw [h.compare_eq hx (hcut ▸ List.mem_append_right _ hp), avlCmpSign_neg]
    exact hlt p hp
  · exact h.place ht hx' hs hle fun p hp => (hlt p hp).le

theorem insert_represents (h : Represents s L) (ha : (Op.insert x k).Admissible L) :
    ∃ s', (Op.insert x k).run debug s = .ok s' ∧ Represents s' ((Op.insert x k).edit L) := by
  obtain ⟨hx, hk⟩ := ha
  obtain ⟨pre, post, hcut, hpre, hpost, hplace⟩ := h.cut hx k
  obtain ⟨hlists, hb⟩ := h.lists.init hx
  rw [hcut] at hlists hx hk
  have hpos (p : α) (hp : p ∈ pre) : 0 < compare (Function.update s.key x k) x p := by
    obtain ⟨hle, hcmp⟩ := hpre p hp
    rw [hcmp, avlCmpSign_pos]
    exact lt_of_le_of_ne hle (hk p (List.mem_append_left post hp))
  obtain ⟨t', hrun, hlists'⟩ :=
    avlInsert_spec debug hlists hx hb (compare_cases _ x) hpos hpost
  exact ⟨⟨t', _⟩, by simp only [Op.run, hrun]; rfl, hplace t' hlists'⟩

theorem insertBack_represents (h : Represents s L) (ha : (Op.insertBack x k).Admissible L) :
    ∃ s', (Op.insertBack x k).run debug s = .ok s' ∧
      Represents s' ((Op.insertBack x k).edit L) := by
  have hx : x ∉ L.nodes := ha
  obtain ⟨pre, post, hcut, hpre, hpost, hplace⟩ := h.cut hx k
  obtain ⟨hlists, hb⟩ := h.lists.init hx
  rw [hcut] at hlists hx
  have hnonneg (p : α) (hp : p ∈ pre) : 0 ≤ compare (Function.update s.key x k) x p := by
    obtain ⟨hle, hcmp⟩ := hpre p hp
    rw [hcmp, ← not_lt, avlCmpSign_neg]
    exact hle.not_gt
  obtain ⟨t', hrun, hlists'⟩ :=
    avlInsertBack_spec hlists hx hb (compare_cases _ x) hnonneg hpost
  exact ⟨⟨t', _⟩, by simp only [Op.run, hrun]; rfl, hplace t' hlists'⟩

theorem prepend_represents (h : Represents s L) (ha : (Op.prepend x k).Admissible L) :
    ∃ s', (Op.prepend x k).run debug s = .ok s' ∧ Represents s' ((Op.prepend x k).edit L) := by
  obtain ⟨hx, hk⟩ := ha
  obtain ⟨hlists, hb⟩ := h.lists.init hx
  have hneg (y : α) (hy : L.nodes.head? = some y) :
      compare (Function.update s.key x k) x y < 0 := by
    have hm := List.mem_of_head? hy
    rw [h.compare_eq hx hm, avlCmpSign_neg]
    exact hk y hm
  obtain ⟨t', hrun, hlists'⟩ := avlPrepend_spec debug hlists hx hb hneg
  refine ⟨⟨t', Function.update s.key x k⟩, by simp only [Op.run, hrun]; rfl, ?_⟩
  have hlists'' : Lists t' ([] ++ x :: L.nodes) := hlists'
  exact h.place hlists'' hx h.sorted (by simp) fun p hp => (hk p hp).le

theorem replace_represents (h : Represents s L) (ha : (Op.replace a x k).Admissible L) :
    ∃ s', (Op.replace a x k).run debug s = .ok s' ∧
      Represents s' ((Op.replace a x k).edit L) := by
  obtain ⟨ha, hx, hp, hn⟩ := ha
  have hsplit := Listing.split ha
  have hlists := h.lists
  have hs := h.sorted
  have hcmp {y : α} (hy : y ∈ L.nodes) :
      compare (Function.update s.key x k) x y = avlCmpSign k (L.key y) :=
    h.compare_eq hx hy
  rw [hsplit] at hlists hx hs hcmp
  have hprev (p : α) (hl : (L.before a).getLast? = some p) :
      0 ≤ compare (Function.update s.key x k) x p := by
    have hm := List.mem_append_left (a :: L.behind a) (List.mem_of_getLast? hl)
    rw [hcmp hm, ← not_lt, avlCmpSign_neg]
    exact (hp p hl).not_gt
  have hnext (n : α) (hl : (L.behind a).head? = some n) :
      compare (Function.update s.key x k) x n ≤ 0 := by
    have hm := List.mem_append_right (L.before a) (List.mem_cons_of_mem a (List.mem_of_head? hl))
    rw [hcmp hm, ← not_lt, avlCmpSign_pos]
    exact (hn n hl).not_gt
  obtain ⟨t', hrun, hlists'⟩ := avlReplace_spec debug hlists hx hprev hnext
  refine ⟨⟨t', Function.update s.key x k⟩, by simp only [Op.run, hrun]; rfl, ?_⟩
  have hsub : (L.before a ++ L.behind a).Sublist (L.before a ++ a :: L.behind a) :=
    (List.sublist_cons_self a _).append_left _
  obtain ⟨h₁, h₂, -⟩ := List.pairwise_append.mp (hs.sublist hsub)
  exact h.place hlists' (fun hm => hx (hsub.subset hm)) (hs.sublist hsub) (le_of_getLast h₁ hp)
    (ge_of_head h₂ hn)

theorem delete_represents (h : Represents s L) (ha : (Op.delete a).Admissible L) :
    ∃ s', (Op.delete a).run debug s = .ok s' ∧ Represents s' ((Op.delete a).edit L) := by
  obtain ⟨t', hrun, hlists⟩ := avlDelete_erase h.lists ha
  refine ⟨⟨t', s.key⟩, by simp only [Op.run, hrun]; rfl, hlists, h.key, ?_⟩
  exact h.sorted.sublist List.erase_sublist

/-- Every operation that meets the conditions of the callers does what it means. -/
theorem Op.represents (op : Op α κ) (h : Represents s L) (ha : op.Admissible L) :
    ∃ s', op.run debug s = .ok s' ∧ Represents s' (op.edit L) := by
  cases op with
  | insert x k => exact insert_represents h ha
  | insertBack x k => exact insertBack_represents h ha
  | prepend x k => exact prepend_represents h ha
  | replace a x k => exact replace_represents h ha
  | delete a => exact delete_represents h ha

end Step

/-- A run that starts on a listing goes through. -/
theorem runOps_represents {debug : Bool} {ops : List (Op α κ)} {s : Store α κ} {L : Listing α κ}
    (h : Represents s L) (ha : Admits L ops) :
    ∃ s', runOps debug s ops = .ok s' ∧ Represents s' (ops.foldl Op.edit L) := by
  induction ops generalizing s L with
  | nil => exact ⟨s, rfl, h⟩
  | cons op ops ih =>
    obtain ⟨s₁, hrun, h₁⟩ := op.represents h ha.1
    obtain ⟨s₂, hrun₂, h₂⟩ := ih h₁ ha.2
    exact ⟨s₂, by rw [runOps, hrun]; exact hrun₂, h₂⟩

/-- From `avl_init` on, whatever the memory contained before, every run succeeds and leaves a
balanced tree whose walk is the listing. -/
theorem represents_of_avlInit (debug : Bool) (t : Avl α) (key : α → κ) (ops : List (Op α κ))
    (ha : Admits ⟨[], key⟩ ops) :
    ∃ s, runOps debug ⟨avlInit t, key⟩ ops = .ok s ∧ Represents s (ops.foldl Op.edit ⟨[], key⟩) :=
  runOps_represents ⟨avlInit_spec t, rfl, List.Pairwise.nil⟩ ha

/-- Every operation once, with a key twice. -/
def mixedRun : List (Op ℕ ℕ) :=
  [.insert 0 5, .insert 1 3, .insertBack 2 5, .prepend 3 1, .replace 1 4 4, .delete 0]

/-- The run on a memory of zeroes. -/
theorem represents_of_avlInit_mixed : ∃ s,
    runOps true ⟨avlInit ⟨fun _ => ⟨0, 0, none, none, none⟩, none, none, 0, 0⟩, fun _ => 0⟩
        mixedRun = .ok s ∧
      Represents s (mixedRun.foldl Op.edit ⟨[], fun _ => 0⟩) :=
  represents_of_avlInit true _ _ _ (by decide)

/-- The listing it ends with. -/
example : (mixedRun.foldl Op.edit ⟨[], fun _ => 0⟩).nodes = [3, 4, 2] := by decide

end Libevl.AvlRun
