import Libevl.AvlLoops

/-!
# The operations on trees as operations on lists

A tree lists its nodes in order. Every operation is described by what it does to
that list; none of them faults on a linked tree, and their loops end.
-/
namespace Libevl.AvlTree
open BinaryTree TreePath

variable {α : Type}

/-- The cells, the ends and the height of `t` make up the tree `s`. -/
structure Linked (t : Avl α) (s : BinaryTree α) : Prop extends Shape t s where
  nodup : (toList s).Nodup
  height : t.height = s.height
  head : t.head = (toList s).head?.map .node
  tail : t.tail = (toList s).getLast?.map .node

/-- `t` is the tree `s`, its count included. -/
structure Rep (t : Avl α) (s : BinaryTree α) : Prop extends Linked t s where
  count : t.count = s.numNodes

/-- The in-order walk of `t` is `as`. -/
def Lists (t : Avl α) (as : List α) : Prop := ∃ s, Rep t s ∧ toList s = as

theorem Lists.nodup {t : Avl α} {as : List α} (h : Lists t as) : as.Nodup := by
  obtain ⟨s, hr, rfl⟩ := h
  exact hr.nodup

/-- Only the cells of the listed nodes and of the anchor matter. -/
theorem Lists.congr {t t' : Avl α} {as : List α} (h : Lists t as)
    (hc : ∀ a ∈ as, t'.cell (.node a) = t.cell (.node a))
    (ha : t'.cell .anchor = t.cell .anchor) (hends : SameEnds t t') : Lists t' as := by
  obtain ⟨s, hr, rfl⟩ := h
  exact ⟨s, ⟨⟨⟨(congrArg Avlh.right ha).trans hr.top, hr.sub.congr hc, hr.balanced⟩, hr.nodup,
    hends.height.trans hr.height, hends.head.trans hr.head, hends.tail.trans hr.tail⟩,
    hends.count.trans hr.count⟩, rfl⟩

theorem Lists.count_eq {t : Avl α} {as : List α} (h : Lists t as) : t.count = as.length := by
  obtain ⟨s, hr, rfl⟩ := h
  rw [hr.count, length_toList]

theorem sub_unique {t : Avl α} {u u' : Ref α} {ty ty' : ℤ} {s s' : BinaryTree α}
    (h : Sub t u ty s) (h' : Sub t u' ty' s') (hr : root s = root s') : s = s' := by
  induction s generalizing u u' ty ty' s' with
  | nil =>
    cases s' with
    | nil => rfl
    | node b l' r' => simp at hr
  | node a l r hl hr' =>
    cases s' with
    | nil => simp at hr
    | node b l' r' =>
      have hab : a = b := by simpa using hr
      subst hab
      have hcell := h.1.symm.trans h'.1
      rw [hl h.2.1 h'.2.1 (congrArg Avlh.left hcell), hr' h.2.2 h'.2.2 (congrArg Avlh.right hcell)]

/-- The memory determines the walk. -/
theorem Lists.unique {t : Avl α} {as bs : List α} (h : Lists t as) (h' : Lists t bs) : as = bs := by
  obtain ⟨s, hs, rfl⟩ := h
  obtain ⟨s', hs', rfl⟩ := h'
  rw [sub_unique hs.sub hs'.sub (hs.top.symm.trans hs'.top)]

theorem Lists.head_eq {t : Avl α} {as : List α} (h : Lists t as) :
    t.head = as.head?.map .node := by
  obtain ⟨s, hr, rfl⟩ := h
  exact hr.head

section Fresh

variable [DecidableEq α] {t : Avl α} {as : List α} {x : α}

/-- A node that is not listed is initialised. -/
theorem Lists.init (h : Lists t as) (hx : x ∉ as) :
    Lists (avlhInit t (.node x)) as ∧ ((avlhInit t (.node x)).cell (.node x)).balance = 0 := by
  have hcell {r : Ref α} (hr : r ≠ .node x) : (avlhInit t (.node x)).cell r = t.cell r := by
    rw [avlhInit, setType, modify_of_ne _ _ _ hr, setBalance_of_ne _ _ _ hr]
  refine ⟨h.congr (fun a ha => hcell ?_) (hcell (by simp)) ⟨rfl, rfl, rfl, rfl⟩, ?_⟩
  · rintro ⟨⟩
    exact hx ha
  · simp [avlhInit, setType, setBalance, Avlh.setType, Avlh.setBalance, narrow2]

/-- The empty tree. -/
theorem avlInit_spec (t : Avl α) : Lists (avlInit t) [] := by
  refine ⟨nil, ⟨⟨⟨?_, trivial, trivial⟩, List.nodup_nil, rfl, rfl, rfl⟩, rfl⟩, rfl⟩
  simp [avlInit, avlhSetLink, Avl.top, Avlh.setLink]

end Fresh

/-- The cells around and in any subtree. -/
theorem Linked.focus {t : Avl α} {s u : BinaryTree α} {c : Path α} (h : Linked t s)
    (hs : s = c.plug u) : Around t c u.height (root u) ∧ Sub t (up c) (type c) u := by
  subst hs
  exact around_plug.mpr ⟨h.top, h.sub⟩

theorem Linked.nodup_focus {t : Avl α} {s u : BinaryTree α} {c : Path α} (h : Linked t s)
    (hs : s = c.plug u) : (c.nodes ++ toList u).Nodup := by
  subst hs
  exact (nodes_perm c u).nodup_iff.mp h.nodup

theorem length_path {s u : BinaryTree α} {c : Path α} (hs : s = c.plug u) :
    c.length + u.numNodes ≤ s.numNodes := by
  subst hs
  have hl := (nodes_perm c u).length_eq
  rw [List.length_append, length_toList, length_toList] at hl
  have := length_nodes c
  omega

theorem Rep.length_path {t : Avl α} {s u : BinaryTree α} {c : Path α} (h : Rep t s)
    (hs : s = c.plug u) : c.length + u.numNodes ≤ t.count :=
  (AvlTree.length_path hs).trans h.count.ge

section Search

variable {t : Avl α} {s : BinaryTree α} {cmp : α → ℤ} {dir : ℤ}

theorem searchLoop_spec (hcmp : ∀ x, cmp x = -1 ∨ cmp x = 0 ∨ cmp x = 1)
    (hdir : dir = 0 ∨ dir = 1) (fuel : ℕ) {c : Path α} {a : α} {l r : BinaryTree α}
    (hs : s = c.plug (node a l r)) (hsub : Sub t (up c) (type c) (node a l r))
    (hc : c.Follows fun x => orElse (cmp x) dir) (hf : (node a l r).height ≤ fuel) :
    ∃ c' a' l' r', Spot (fun x => orElse (cmp x) dir) s c' a' l' r' ∧
      searchLoop t cmp dir fuel (.node a) = .ok (.node a', cmp a') := by
  induction fuel generalizing c a l r with
  | zero => simp at hf
  | succ fuel ih =>
    have hor : orElse (cmp a) dir = 0 ∨ ∃ d : Side, orElse (cmp a) dir = d.sign := by
      rcases hcmp a with h | h | h <;> rcases hdir with h' | h' <;> rw [h, h']
      · exact .inr ⟨.left, rfl⟩
      · exact .inr ⟨.left, rfl⟩
      · exact .inl rfl
      · exact .inr ⟨.right, rfl⟩
      · exact .inr ⟨.right, rfl⟩
      · exact .inr ⟨.right, rfl⟩
    rcases hor with hz | ⟨d, hd⟩
    · exact ⟨c, a, l, r, ⟨hs.symm, hc, .inl hz⟩, by simp [searchLoop, hz]⟩
    · have hne : d.sign ≠ 0 := by cases d <;> decide
      obtain ⟨near, far, hj⟩ := exists_join d a l r
      rw [hj] at hsub hf hs
      obtain ⟨ca, hnear, -⟩ := sub_join.mp hsub
      cases near with
      | nil =>
        refine ⟨c, a, l, r, ⟨by rw [hs, hj], hc, .inr ⟨d, far, hd, hj⟩⟩, ?_⟩
        simp [searchLoop, hd, hne, ca]
      | node b l' r' =>
        obtain ⟨c', a', l'', r'', hspot, hrun⟩ := ih (c := .step d a far c) (a := b) (l := l')
          (r := r') hs hnear ⟨hd, hc⟩ (by rw [height_join] at hf; omega)
        exact ⟨c', a', l'', r'', hspot, by simp [searchLoop, hd, hne, ca, hrun]⟩

/-- A search on a tree that is not empty ends at a spot. -/
theorem search_spec (h : Rep t s) (hs : s ≠ nil)
    (hcmp : ∀ x, cmp x = -1 ∨ cmp x = 0 ∨ cmp x = 1) (hdir : dir = 0 ∨ dir = 1) :
    ∃ c a l r, Spot (fun x => orElse (cmp x) dir) s c a l r ∧
      search t cmp dir = .ok (some (.node a), cmp a) := by
  cases s with
  | nil => exact absurd rfl hs
  | node a l r =>
    have hfuel : (node a l r).height ≤ t.fuel := by
      have := height_le_numNodes (node a l r)
      rw [Avl.fuel, h.count]
      omega
    obtain ⟨c', a', l', r', hspot, hrun⟩ := searchLoop_spec (c := .top) hcmp hdir t.fuel rfl h.sub
      trivial hfuel
    exact ⟨c', a', l', r', hspot, by simp [search, h.top, hrun]⟩

theorem search_nil (h : Rep t nil) : search t cmp dir = .ok (none, 1) := by
  simp [search, h.top]

end Search

section Inorder

variable {t : Avl α} {c : Path α} {d : Side} {s : BinaryTree α} {x : Ref α}

/-- Going down on the side away from `d` finds the first node of the walk. -/
theorem descend_spec (fuel : ℕ) {u : Ref α} {ty : ℤ} (hf : s.height ≤ fuel) (hx : root s = some x)
    (hs : Sub t u ty s) :
    ∃ y, (walk d s).head? = some y ∧ descend t (-d.sign) fuel x = .ok (.node y) := by
  induction fuel generalizing s u ty x with
  | zero =>
    have hs := height_eq_zero.mp (Nat.le_zero.mp hf)
    simp [hs] at hx
  | succ fuel ih =>
    cases s with
    | nil => simp at hx
    | node a l r =>
      cases hx
      obtain ⟨near, far, hj⟩ := exists_join d a l r
      rw [hj] at hs hf ⊢
      obtain ⟨ca, -, hfar⟩ := sub_join.mp hs
      rw [height_join] at hf
      rw [walk_join]
      cases far with
      | nil => exact ⟨a, by simp, by simp [descend, ca]⟩
      | node b l' r' =>
        obtain ⟨y, hy, hrun⟩ := ih (x := .node b) (by omega) rfl hfar
        exact ⟨y, by simp [hy], by simp [descend, ca, hrun]⟩

variable [DecidableEq α]

/-- Climbing finds the first node of the walk after a subtree. -/
theorem climb_spec (fuel : ℕ) {h : ℕ} (hf : c.length < fuel)
    (hx : (t.cell x).type = type c ∧ (t.cell x).up = some (up c)) {p : Option (Ref α)}
    (hc : Around t c h p) :
    climb t d.sign fuel x = .ok ((c.after d).head?.map .node) := by
  induction fuel generalizing c x h p with
  | zero => simp at hf
  | succ fuel ih =>
    obtain ⟨hty, hup⟩ := hx
    cases c with
    | top =>
      simp [climb, hup, up, Path.after]
      rfl
    | step e a other rest =>
      obtain ⟨ca, -, hrest⟩ := hc
      rcases Side.eq_or_opp d e with rfl | rfl
      · have hrun := ih (c := rest) (x := .node a) (by simp only [Path.length] at hf; omega)
          (by rw [ca]; exact ⟨holder_type .., holder_up ..⟩) hrest
        simp [climb, hty, hup, type, up, hrun, Path.after]
      · have hne : -d.sign ≠ d.sign := by cases d <;> decide
        simp [climb, hty, hup, type, up, hne, Path.after]
        rfl

/-- The neighbour of a node in the walk. -/
theorem avlInorder_spec (h : Linked t s) (hcount : s.numNodes ≤ t.count + 1) {a : α}
    {near far : BinaryTree α} (hs : s = c.plug (join d near a far)) :
    avlInorder t (.node a) d.sign = .ok ((walk d near ++ c.after d).head?.map .node) := by
  obtain ⟨hc, hsub⟩ := h.focus hs
  have hlen := length_path hs
  obtain ⟨ca, hnear, -⟩ := sub_join.mp hsub
  have hnum : near.numNodes < (join d near a far).numNodes := by
    rw [← length_toList (join d near a far), (join_perm d near a far).length_eq, ← length_toList]
    simp only [List.length_cons, List.length_append]
    omega
  cases near with
  | nil =>
    have hrun := climb_spec (d := d) t.fuel (x := .node a) (by rw [Avl.fuel]; omega)
      (by rw [ca]; exact ⟨holder_type .., holder_up ..⟩) hc
    simp [avlInorder, ca, hrun]
  | node b l r =>
    have hfuel : (node b l r).height ≤ t.fuel := by
      have := height_le_numNodes (node b l r)
      rw [Avl.fuel]
      omega
    obtain ⟨y, hy, hrun⟩ := descend_spec (d := d) t.fuel hfuel rfl hnear
    simp [avlInorder, ca, avlOpposite, hrun, hy]

omit [DecidableEq α] in
/-- The walk around a listed node. -/
theorem Linked.split (h : Linked t s) {pre post : List α} {a : α} (hs : toList s = pre ++ a :: post) :
    ∃ (c : Path α) (l r : BinaryTree α), s = c.plug (node a l r) ∧
      pre = (c.after .left).reverse ++ toList l ∧ post = toList r ++ c.after .right := by
  obtain ⟨c, l, r, rfl⟩ := exists_path (show a ∈ toList s by simp [hs])
  refine ⟨c, l, r, rfl, ?_⟩
  have hnd := h.nodup
  have heq : (c.after .left).reverse ++ toList l ++ a :: (toList r ++ c.after .right) =
      pre ++ a :: post := by
    rw [← hs, toList_plug]
    simp
  rw [hs, List.nodup_append, List.nodup_cons] at hnd
  have hapre : a ∉ pre := fun ha => hnd.2.2 a ha a List.mem_cons_self rfl
  obtain ⟨h₁, -, h₂⟩ := (List.append_cons_inj_of_notMem hapre hnd.2.1.1).mp heq.symm
  exact ⟨h₁, h₂⟩

/-- `avl_next` is the successor in the list. -/
theorem avlNext_spec {pre post : List α} {a : α} (h : Lists t (pre ++ a :: post)) :
    avlNext t (.node a) = .ok (post.head?.map .node) := by
  obtain ⟨s, hr, hs⟩ := h
  obtain ⟨c, l, r, rfl, -, rfl⟩ := hr.split hs
  exact avlInorder_spec (d := .right) hr.toLinked (by rw [hr.count]; omega) rfl

/-- `avl_prev` is the predecessor in the list. -/
theorem avlPrev_spec {pre post : List α} {a : α} (h : Lists t (pre ++ a :: post)) :
    avlPrev t (.node a) = .ok (pre.getLast?.map .node) := by
  obtain ⟨s, hr, hs⟩ := h
  obtain ⟨c, l, r, rfl, rfl, -⟩ := hr.split hs
  have hj : c.plug (node a l r) = c.plug (join .left l a r) := rfl
  have hrun := avlInorder_spec hr.toLinked (by rw [hr.count]; omega) hj
  rw [← List.head?_reverse, List.reverse_append, List.reverse_reverse]
  exact hrun

end Inorder

section Position

variable {t : Avl α} {s : BinaryTree α} {cmp : α → ℤ} {dir : ℤ} {pre post as : List α}

/-- A list is cut in only one way by the sign of a function. -/
theorem split_unique {f : α → ℤ} {pre' post' : List α} (h : pre ++ post = pre' ++ post')
    (h₁ : ∀ p ∈ pre, 0 < f p) (h₂ : ∀ p ∈ post, f p < 0)
    (h₃ : ∀ p ∈ pre', 0 < f p) (h₄ : ∀ p ∈ post', f p < 0) : pre = pre' ∧ post = post' := by
  have hcut {xs ys : List α} (hx : ∀ p ∈ xs, 0 < f p) (hy : ∀ p ∈ ys, f p < 0) :
      (xs ++ ys).filter (fun p => 0 < f p) = xs := by
    rw [List.filter_append, List.filter_eq_self.mpr (by simpa using hx),
      List.filter_eq_nil_iff.mpr (by simpa using fun p hp => (hy p hp).le), List.append_nil]
  have hpre : pre = pre' := by rw [← hcut h₁ h₂, h, hcut h₃ h₄]
  subst hpre
  exact ⟨rfl, List.append_cancel_left h⟩

theorem pairwise_of_split {f : α → ℤ} (hf : ∀ x, f x = -1 ∨ f x = 0 ∨ f x = 1)
    (h₁ : ∀ p ∈ pre, 0 < f p) (h₂ : ∀ p ∈ post, f p < 0) :
    (pre ++ post).Pairwise fun x y => f y ≤ f x := by
  have hone : ∀ p ∈ pre, f p = 1 := fun p hp => by
    have := h₁ p hp
    rcases hf p with h | h | h <;> omega
  have hneg : ∀ p ∈ post, f p = -1 := fun p hp => by
    have := h₂ p hp
    rcases hf p with h | h | h <;> omega
  refine List.pairwise_append.mpr ⟨?_, ?_, fun x hx y hy => ?_⟩
  · exact List.pairwise_of_forall_mem_list fun x hx y hy => by rw [hone x hx, hone y hy]
  · exact List.pairwise_of_forall_mem_list fun x hx y hy => by rw [hneg x hx, hneg y hy]
  · rw [hone x hx, hneg y hy]
    decide

/-- A search ends where a new node belongs. -/
theorem search_position (h : Rep t s) (hne : s ≠ nil)
    (hcmp : ∀ x, cmp x = -1 ∨ cmp x = 0 ∨ cmp x = 1) (hdir : dir = 0 ∨ dir = 1)
    (hs : toList s = pre ++ post) (hpre : ∀ p ∈ pre, 0 < orElse (cmp p) dir)
    (hpost : ∀ p ∈ post, orElse (cmp p) dir < 0) :
    ∃ c a w d, s = c.plug (join d nil a w) ∧ search t cmp dir = .ok (some (.node a), cmp a) ∧
      orElse (cmp a) dir = d.sign ∧ pre = ((Path.step d a w c).after .left).reverse ∧
      post = (Path.step d a w c).after .right := by
  obtain ⟨c, a, l, r, ⟨hplug, hfol, hstop⟩, hrun⟩ := search_spec h hne hcmp hdir
  have ha : a ∈ pre ++ post := by
    rw [← hs, ← hplug, toList_plug]
    simp
  have hnz : orElse (cmp a) dir ≠ 0 := by
    rcases List.mem_append.mp ha with ha | ha
    · exact (hpre a ha).ne'
    · exact (hpost a ha).ne
  obtain ⟨d, w, hd, hj⟩ := hstop.resolve_left hnz
  rw [hj] at hplug
  have hor : ∀ x, orElse (cmp x) dir = -1 ∨ orElse (cmp x) dir = 0 ∨ orElse (cmp x) dir = 1 := by
    intro x
    rcases hcmp x with h | h | h <;> rcases hdir with h' | h' <;> rw [h, h'] <;> decide
  have hfol' : (Path.step d a w c).Follows fun x => orElse (cmp x) dir := ⟨hd, hfol⟩
  have hlist : toList ((Path.step d a w c).plug nil) = pre ++ post := by
    rw [Path.plug_step, hplug, hs]
  obtain ⟨h₁, h₂⟩ := hfol'.after (t := nil) (by
    rw [hlist]
    exact pairwise_of_split hor hpre hpost)
  rw [toList_plug, toList_nil, List.append_nil] at hlist
  obtain ⟨h₃, h₄⟩ := split_unique hlist.symm hpre hpost
    (fun p hp => h₁ p (List.mem_reverse.mp hp)) h₂
  exact ⟨c, a, w, d, hplug.symm, hrun, hd, h₃, h₄⟩

/-- The nearest node is one with the key itself, or the first one on the asked side of where
the key belongs. -/
theorem avlSearchNearest_spec [DecidableEq α] (h : Lists t as)
    (hcmp : ∀ x, cmp x = -1 ∨ cmp x = 0 ∨ cmp x = 1)
    (hmono : as.Pairwise fun x y => cmp y ≤ cmp x) :
    (∃ a ∈ as, cmp a = 0 ∧ ∀ d : Side, avlSearchNearest t cmp d.sign = .ok (some (.node a))) ∨
      ∃ pre post, as = pre ++ post ∧ (∀ p ∈ pre, 0 < cmp p) ∧ (∀ p ∈ post, cmp p < 0) ∧
        avlSearchLe t cmp = .ok (pre.getLast?.map .node) ∧
        avlSearchGe t cmp = .ok (post.head?.map .node) := by
  obtain ⟨s, hr, rfl⟩ := h
  by_cases hne : s = nil
  · subst hne
    refine .inr ⟨[], [], rfl, by simp, by simp, ?_, ?_⟩
    · simp [avlSearchLe, avlSearchNearest, search_nil hr]
      rfl
    · simp [avlSearchGe, avlSearchNearest, search_nil hr]
      rfl
  have hor : (fun x => orElse (cmp x) 0) = cmp := by
    ext1 x
    unfold orElse
    split_ifs with hx
    · rfl
    · exact (not_not.mp hx).symm
  obtain ⟨c, a, l, r, ⟨hplug, hfol, hstop⟩, hrun⟩ := search_spec hr hne hcmp (.inl rfl)
  rw [hor] at hfol
  by_cases hz : cmp a = 0
  · refine .inl ⟨a, by rw [← hplug, toList_plug]; simp, hz, fun d => ?_⟩
    have hd : ¬ 0 = d.sign := by cases d <;> decide
    simp [avlSearchNearest, hrun, hz, hd]
    rfl
  · obtain ⟨e, w, hd, hj⟩ := hstop.resolve_left (by rwa [show orElse (cmp a) 0 = cmp a from
      congrFun hor a])
    rw [show orElse (cmp a) 0 = cmp a from congrFun hor a] at hd
    rw [hj] at hplug
    have hfol' : (Path.step e a w c).Follows cmp := ⟨hd, hfol⟩
    obtain ⟨h₁, h₂⟩ := hfol'.after (t := nil) (by rwa [Path.plug_step, hplug])
    have hlist := toList_plug (Path.step e a w c) nil
    rw [Path.plug_step, hplug, toList_nil, List.append_nil] at hlist
    have hnear (d : Side) : avlSearchNearest t cmp d.sign =
        .ok (((Path.step e a w c).after d).head?.map .node) := by
      rcases Side.eq_or_opp d e with rfl | rfl
      · have hnext := avlInorder_spec hr.toLinked (by rw [hr.count]; omega) hplug.symm
        simp [avlSearchNearest, hrun, hd, hnext, Path.after]
      · have hne' : -d.sign ≠ d.sign := by cases d <;> decide
        simp [avlSearchNearest, hrun, hd, hne', Path.after]
        rfl
    refine .inr ⟨_, _, hlist, fun p hp => h₁ p (List.mem_reverse.mp hp), h₂, ?_, hnear .right⟩
    rw [List.getLast?_reverse]
    exact hnear .left

end Position

section Reversed

variable {t : Avl α} {s : BinaryTree α} {cmp : α → ℤ} {d : Side} {as : List α}

/-- A search that always goes to the side `d` ends at the last node there. -/
theorem searchLoop_uniform (fuel : ℕ) {u : Ref α} {ty : ℤ} {a : α} {l r : BinaryTree α}
    (hs : Sub t u ty (node a l r)) (hf : (node a l r).height ≤ fuel)
    (hcmp : ∀ x ∈ toList (node a l r), cmp x = d.sign) :
    ∃ b, (walk d (node a l r)).getLast? = some b ∧
      searchLoop t cmp 0 fuel (.node a) = .ok (.node b, d.sign) := by
  induction fuel generalizing u ty a l r with
  | zero => simp at hf
  | succ fuel ih =>
    have hne : d.sign ≠ 0 := by cases d <;> decide
    have ha : cmp a = d.sign := hcmp a (by simp)
    obtain ⟨near, far, hj⟩ := exists_join d a l r
    rw [hj] at hs hf hcmp ⊢
    obtain ⟨ca, hnear, -⟩ := sub_join.mp hs
    rw [walk_join, List.getLast?_append]
    cases near with
    | nil => exact ⟨a, by simp, by simp [searchLoop, ha, orElse, hne, ca]⟩
    | node b l' r' =>
      rw [height_join] at hf
      obtain ⟨y, hy, hrun⟩ := ih hnear (by omega) (fun x hx => hcmp x (mem_join.mpr (.inr (.inl hx))))
      refine ⟨y, ?_, by simp [searchLoop, ha, orElse, hne, ca, hrun]⟩
      rw [List.getLast?_cons, hy]
      rfl

/-- A search in a tree whose order the comparison reverses: the root decides. -/
theorem avlSearchGe_reversed [DecidableEq α] (h : Lists t as)
    (hcmp : ∀ x ∈ as, cmp x = 1 ∨ cmp x = -1) (hmono : as.Pairwise fun x y => cmp x ≤ cmp y) :
    as = [] ∧ t.top = none ∧ avlSearchGe t cmp = .ok none ∨
      ∃ a ∈ as, t.top = some (.node a) ∧
        (cmp a = 1 → avlSearchGe t cmp = .ok none) ∧
        (cmp a = -1 → ∃ b ∈ as, avlSearchGe t cmp = .ok (some (.node b))) := by
  obtain ⟨s, hr, rfl⟩ := h
  cases s with
  | nil =>
    refine .inl ⟨rfl, hr.top, ?_⟩
    simp [avlSearchGe, avlSearchNearest, search_nil hr]
    rfl
  | node a l r =>
    have hfuel : (node a l r).height ≤ t.fuel := by
      have := height_le_numNodes (node a l r)
      rw [Avl.fuel, hr.count]
      omega
    have htop : t.top = some (.node a) := hr.top
    obtain ⟨n, hn⟩ : ∃ n, t.fuel = n + 1 := ⟨_, rfl⟩
    rw [hn] at hfuel
    rw [toList_node, List.pairwise_append, List.pairwise_cons] at hmono
    obtain ⟨-, ⟨hright, -⟩, hleft⟩ := hmono
    -- the search only meets nodes on the side on which it leaves the root
    have hstep (e : Side) (ha : cmp a = e.sign)
        (hside : ∀ near far, node a l r = join e near a far → ∀ x ∈ toList near, cmp x = e.sign) :
        ∃ b, (walk e (node a l r)).getLast? = some b ∧
          searchLoop t cmp 0 (n + 1) (.node a) = .ok (.node b, e.sign) := by
      obtain ⟨near, far, hj⟩ := exists_join e a l r
      have hsub := hr.sub
      have hne : e.sign ≠ 0 := by cases e <;> decide
      rw [hj] at hsub hfuel ⊢
      obtain ⟨ca, hnear, -⟩ := sub_join.mp hsub
      rw [walk_join, List.getLast?_append]
      cases near with
      | nil =>
        refine ⟨a, by simp, ?_⟩
        simp [searchLoop, ha, orElse, hne, ca]
      | node b l' r' =>
        rw [height_join] at hfuel
        obtain ⟨y, hy, hrun⟩ := searchLoop_uniform n hnear (by omega) (hside _ _ hj)
        refine ⟨y, ?_, by simp [searchLoop, ha, orElse, hne, ca, hrun]⟩
        rw [List.getLast?_cons, hy]
        rfl
    refine .inr ⟨a, by simp, htop, fun ha => ?_, fun ha => ?_⟩
    · obtain ⟨b, hb, hrun⟩ := hstep .right ha (fun near far hj x hx => by
        injection hj with _ _ hnear
        subst hnear
        have hle := hright x hx
        rcases hcmp x (by simp [hx]) with h | h
        · exact h
        · omega)
      obtain ⟨pre, hpre⟩ := List.getLast?_eq_some_iff.mp hb
      have hlist : Lists t (pre ++ b :: []) := ⟨_, hr, hpre⟩
      have hnext := avlNext_spec hlist
      simp only [avlSearchGe, avlSearchNearest, search, htop, hn, hrun, ok_bind]
      exact hnext
    · obtain ⟨b, hb, hrun⟩ := hstep .left ha (fun near far hj x hx => by
        injection hj with _ hnear _
        subst hnear
        have hle := hleft x hx a List.mem_cons_self
        rcases hcmp x (by simp [hx]) with h | h
        · omega
        · exact h)
      refine ⟨b, mem_walk.mp (List.mem_of_getLast? hb), ?_⟩
      simp only [avlSearchGe, avlSearchNearest, search, htop, hn, hrun, ok_bind]
      rfl

end Reversed

end Libevl.AvlTree
