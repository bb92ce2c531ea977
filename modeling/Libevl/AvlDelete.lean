import Libevl.AvlUpdate

/-!
# Deletion

A node with two children first gives up its neighbour, which then takes its
place. The other nodes are unlinked, and the tree is rebalanced from there.
-/
namespace Libevl.AvlTree
open BinaryTree TreePath

variable {α : Type} [DecidableEq α] {t : Avl α} {s : BinaryTree α} {c : Path α} {d : Side}
  {a b : α} {l r : BinaryTree α} {pre post : List α}

/-- An end moves to the neighbour of a deleted node. -/
theorem erase_ends (hnd : (pre ++ a :: post).Nodup)
    (hhead : t.head = (pre ++ a :: post).head?.map .node)
    (htail : t.tail = (pre ++ a :: post).getLast?.map .node)
    (hl : d = .left → ∃ ys, post = b :: ys) (hr : d = .right → ∃ xs, pre = xs ++ [b]) :
    (moveEnd t d.sign (.node a) (.node b)).head = (pre ++ post).head?.map .node ∧
      (moveEnd t d.sign (.node a) (.node b)).tail = (pre ++ post).getLast?.map .node := by
  rw [moveEnd_head, moveEnd_tail]
  cases d with
  | left =>
    obtain ⟨ys, rfl⟩ := hl rfl
    have hmoved := rename_head (x := b) ys hnd hhead
    refine ⟨by simpa [Side.sign] using hmoved, ?_⟩
    rw [if_neg (fun hd => absurd hd.1 (by decide)), htail]
    simp [List.getLast?_append, List.getLast?_cons]
  | right =>
    obtain ⟨xs, rfl⟩ := hr rfl
    have hmoved := rename_tail (x := b) xs hnd htail
    refine ⟨?_, by simpa [Side.sign] using hmoved⟩
    rw [if_neg (fun hd => absurd hd.1 (by decide)), hhead]
    cases xs <;> rfl

/-- A run of the rebalancing loop completes the deletion. -/
theorem shrink_rep {h n : ℕ} {x : Ref α} {as : List α} (hf : c.length < n)
    (hx : (t.cell x).type = type c ∧ (t.cell x).up = some (up c))
    (hz : (t.cell x).balance = 0) (hsub : Sub t (up c) (type c) s)
    (hc : Around t c h (root s)) (hbs : Balanced s) (hb : c.Balanced h) (hh : s.height + 1 = h)
    (ht : t.height = c.height h) (hlist : toList (c.plug s) = as) (hnd : as.Nodup)
    (hhead : t.head = as.head?.map .node) (htail : t.tail = as.getLast?.map .node) :
    ∃ t' s', shrinkLoop n t x = .ok t' ∧ Linked t' s' ∧ toList s' = as ∧
      t'.count = t.count := by
  subst hlist
  obtain ⟨t', s', hrun, hshape, hheight, hlist, hsame⟩ := shrinkLoop_spec n hf hx hsub hc hbs hb
    ((nodes_perm c s).nodup_iff.mp hnd) (.inl ⟨hz, hh⟩) ht
  refine ⟨t', s', hrun, ⟨hshape, by rwa [hlist], hheight, ?_, ?_⟩, hlist, hsame.count⟩
  · rw [hsame.head, hhead, hlist]
  · rw [hsame.tail, htail, hlist]

/-- The last node. -/
theorem delete_last (n : ℕ) (h : Rep t (node a nil nil)) :
    ∃ t', deleteWith (n + 1) t (.node a) = .ok t' ∧ Lists t' [] := by
  have hcount : t.count = 1 := h.count
  have hheight : t.height = 1 := h.height
  refine ⟨_, by simp [deleteWith, hcount]; rfl, nil, ⟨⟨⟨?_, trivial, trivial⟩, by simp, ?_, rfl,
    rfl⟩, ?_⟩, rfl⟩
  · simp [avlhSetLink, Avl.top, Avlh.setLink]
  · simp [hheight]
  · simp [avlhSetLink]

/-- A leaf below another node. -/
theorem delete_leaf (n : ℕ) {p : α} {other : BinaryTree α} {rest : Path α}
    (h : Linked t ((Path.step d p other rest).plug (node a nil nil))) (hcount : 1 < t.count)
    (hf : (Path.step d p other rest).length < t.count + 1) :
    ∃ t' s', deleteWith (n + 1) t (.node a) = .ok t' ∧ Linked t' s' ∧
      toList s' = toList ((Path.step d p other rest).plug nil) ∧ t'.count = t.count - 1 := by
  obtain ⟨hc, ca, -, -⟩ := h.focus rfl
  have hnd := h.nodup_focus rfl
  have hbal := (balanced_plug _ _).mp h.balanced
  simp only [root_nil, root_node] at ca hc
  obtain ⟨hnew, hold⟩ := toList_attach rest d p a other
  have hhead := h.head
  have htail := h.tail
  have hns := h.nodup
  rw [hnew] at hhead htail hns
  obtain ⟨hl, hr⟩ := after_attach rest d p other
  let t₁ : Avl α := avlhSetLink { t with count := t.count - 1 } (.node p) d.sign none
  obtain ⟨hh', ht'⟩ := erase_ends (t := t₁) hns hhead htail hl hr
  have hap : Ref.node a ≠ .node p := by
    simp only [List.nodup_append, Path.nodes, List.mem_append, List.mem_cons, toList_node,
      toList_nil, List.nil_append] at hnd
    rintro ⟨⟩
    exact hnd.2.2 a (.inl (.inl rfl)) a (.inl rfl) rfl
  have ca₁ : t₁.cell (.node a) = t.cell (.node a) := modify_of_ne _ _ _ hap
  have hc₁ : Around t₁ (.step d p other rest) 1 none := by
    refine hc.relink (List.nodup_append.mp hnd).1 ?_ fun z _ hz => modify_of_ne _ _ _ hz
    exact modify_self ..
  let t₂ := moveEnd t₁ d.sign (.node a) (.node p)
  have hcell : t₂.cell = t₁.cell := moveEnd_cell ..
  have hcount₂ : t₂.count = t.count - 1 := moveEnd_count ..
  obtain ⟨t', s', hrun, hlinked, hlist, hcount'⟩ := shrink_rep (t := t₂)
    (c := .step d p other rest) (s := nil) (x := .node a) (n := t₂.fuel) (h := 1)
    (by
      rw [Avl.fuel, hcount₂]
      omega)
    (by rw [hcell, ca₁, ca]; exact ⟨rfl, rfl⟩) (by rw [hcell, ca₁, ca]; rfl) trivial
    (hc₁.congr (fun z _ => by rw [hcell]) (by rw [hcell])) trivial hbal.1 rfl
    (by
      rw [moveEnd_height]
      change t.height = _
      rw [h.height, height_plug]
      rfl)
    (by rw [Path.plug_step, hold])
    (List.Sublist.nodup (by simp) hns) hh' ht'
  refine ⟨t', s', ?_, hlinked, by rw [hlist, Path.plug_step, hold], hcount'.trans hcount₂⟩
  have hcne : t.count - 1 ≠ 0 := by omega
  have hdel : avlDeleteLeaf { t with count := t.count - 1 } (.node a) = .ok t₂ := by
    have hd : (t.cell (.node a)).link d.sign = none := by rw [ca]; cases d <;> rfl
    have hup : (t.cell (.node a)).up = some (.node p) := by rw [ca]; rfl
    have hty : (t.cell (.node a)).type = d.sign := by rw [ca]; rfl
    simp only [avlDeleteLeaf, hup, hty, hd, deref_some, ok_bind]
    rfl
  simp [deleteWith, hcne, ca, hdel, Avlh.link, hrun]

omit [DecidableEq α] in
/-- The walk around a node with one child, which is a leaf. -/
theorem toList_one_child (c : Path α) (d : Side) (a b : α) :
    ∃ pre post, toList (c.plug (join d (node b nil nil) a nil)) = pre ++ a :: post ∧
      toList (c.plug (node b nil nil)) = pre ++ post ∧
      (d.opp = .left → ∃ ys, post = b :: ys) ∧ (d.opp = .right → ∃ xs, pre = xs ++ [b]) := by
  cases d with
  | left =>
    refine ⟨(c.after .left).reverse ++ [b], c.after .right, ?_, ?_, by simp [Side.opp],
      fun _ => ⟨_, rfl⟩⟩ <;> simp [toList_plug, join]
  | right =>
    refine ⟨(c.after .left).reverse, b :: c.after .right, ?_, ?_, fun _ => ⟨_, rfl⟩,
      by simp [Side.opp]⟩ <;> simp [toList_plug, join]

/-- A node whose only child takes its place. -/
theorem delete_1child (n : ℕ) (h : Linked t (c.plug (join d (node b nil nil) a nil)))
    (hcount : 1 < t.count) (hf : c.length < t.count + 1) :
    ∃ t' s', deleteWith (n + 1) t (.node a) = .ok t' ∧ Linked t' s' ∧
      toList s' = toList (c.plug (node b nil nil)) ∧ t'.count = t.count - 1 := by
  obtain ⟨hc, hsub⟩ := h.focus rfl
  have hnd := (List.Perm.nodup_iff ((join_perm d _ a nil).append_left c.nodes)).mp
    (h.nodup_focus rfl)
  have hbal := (balanced_plug _ _).mp h.balanced
  have hheight : (join d (node b nil nil) a nil).height = 2 := by cases d <;> rfl
  rw [root_join, hheight] at hc
  rw [hheight] at hbal
  obtain ⟨ca, ⟨cb, -, -⟩, -⟩ := sub_join.mp hsub
  simp only [toList_node, toList_nil, List.nil_append, List.append_nil, List.nodup_append,
    List.nodup_cons, List.mem_cons, List.not_mem_nil, or_false, not_false_eq_true,
    List.nodup_nil, and_true] at hnd
  obtain ⟨ndc, hab, hdis⟩ := hnd
  have hne : Ref.node b ≠ .node a := by simpa using Ne.symm hab
  obtain ⟨pre, post, hold, hnew, hl, hr⟩ := toList_one_child c d a b
  have hns := h.nodup
  rw [hold] at hns
  -- the child is unlinked from `a`, then put in its place
  let t₁ : Avl α := avlhSetLink { t with count := t.count - 1 } (.node a) d.sign none
  have ho₁ {z : Ref α} (hz : z ≠ .node a) : t₁.cell z = t.cell z := modify_of_ne _ _ _ hz
  have ca₁ : t₁.cell (.node a) = ⟨type c, balance (join d (node b nil nil) a nil),
      root (nil : BinaryTree α), some (up c), root (nil : BinaryTree α)⟩ := by
    have hself : t₁.cell (.node a) = (t.cell (.node a)).setLink d.sign none := modify_self ..
    rw [hself, ca, holder_setNear]
    cases d <;> rfl
  have hc₁ : Around t₁ c 2 (some (.node a)) := by
    refine hc.congr (fun z hz => ho₁ ?_) (ho₁ (by simp))
    rintro ⟨⟩
    exact hdis a hz a (.inl rfl) rfl
  obtain ⟨t₂, hrep, hends₂, cb₂, -, -, -, hc₂⟩ := avlhReplace_spec (x := b) ca₁ trivial trivial hc₁
    (by
      simp only [toList_nil, List.append_nil, List.nodup_append, List.nodup_cons, List.mem_cons,
        List.not_mem_nil, or_false, not_false_eq_true, List.nodup_nil, and_true, true_and]
      exact ⟨ndc, fun z hz y hy => hdis z hz y (.inl hy)⟩)
    (by
      simp only [toList_nil, List.append_nil, List.mem_append, List.mem_cons, List.not_mem_nil,
        or_false, not_or]
      exact ⟨fun hm => hdis b hm b (.inr rfl) rfl, Ne.symm hab⟩)
  rw [ho₁ hne, cb] at cb₂
  have hhead₂ : t₂.head = (pre ++ a :: post).head?.map .node := by
    rw [hends₂.head, ← hold]
    exact h.head
  have htail₂ : t₂.tail = (pre ++ a :: post).getLast?.map .node := by
    rw [hends₂.tail, ← hold]
    exact h.tail
  obtain ⟨hh', ht'⟩ := erase_ends (d := d.opp) hns hhead₂ htail₂ hl hr
  rw [Side.sign_opp] at hh' ht'
  let t₃ := moveEnd t₂ (-d.sign) (.node a) (.node b)
  have hcell : t₃.cell = t₂.cell := moveEnd_cell ..
  have hcount₃ : t₃.count = t.count - 1 := (moveEnd_count ..).trans hends₂.count
  obtain ⟨t', s', hrun, hlinked, hlist, hcount'⟩ := shrink_rep (t := t₃) (c := c)
    (s := node b nil nil) (x := .node b) (n := t₃.fuel) (h := 2)
    (by
      rw [Avl.fuel, hcount₃]
      omega)
    (by rw [hcell, cb₂]; exact ⟨rfl, rfl⟩) (by rw [hcell, cb₂]; rfl)
    ⟨by rw [hcell, cb₂], trivial, trivial⟩
    (hc₂.congr (fun z _ => by rw [hcell]) (by rw [hcell])) (by simp [TreePath.Balanced, balance]) hbal.1 rfl
    (by
      rw [moveEnd_height, hends₂.height]
      change t.height = _
      rw [h.height, height_plug, hheight])
    hnew (List.Sublist.nodup (by simp) hns) hh' ht'
  refine ⟨t', s', ?_, hlinked, by rw [hlist, hnew], hcount'.trans hcount₃⟩
  have hcne : t.count - 1 ≠ 0 := by omega
  have hlink : (t.cell (.node a)).link d.sign = some (.node b) ∧
      (t.cell (.node a)).link (-d.sign) = none := by
    rw [ca]
    simp
  have hbl : (t.cell (.node b)).link d.sign = none := by
    rw [cb]
    cases d <;> rfl
  have hdel : avlDelete1child { t with count := t.count - 1 } (.node a) d.sign =
      .ok (t₃, .node b) := by
    simp only [avlDelete1child, hlink.1, hbl, deref_some, ok_bind]
    rw [show avlhReplace (avlhSetLink { t with count := t.count - 1 } (.node a) d.sign none)
      (.node a) (.node b) = .ok t₂ from hrep]
    rfl
  cases d with
  | left =>
    simp only [Side.sign, neg_neg] at hlink hdel
    simp [deleteWith, hcne, hlink, hdel, hrun]
  | right =>
    simp only [Side.sign] at hlink hdel
    simp [deleteWith, hcne, hlink, hdel, hrun]

/-- A node with at most one child. -/
theorem delete_thin (n : ℕ) {w : BinaryTree α} (h : Linked t (c.plug (join d nil a w)))
    (hs : 1 < (c.plug (join d nil a w)).numNodes) (hcount : 1 < t.count)
    (hf : (c.plug (join d nil a w)).numNodes ≤ t.count + 1) :
    ∃ t' s', deleteWith (n + 1) t (.node a) = .ok t' ∧ Linked t' s' ∧
      toList s' = toList (c.plug w) ∧ t'.count = t.count - 1 := by
  have hlen := length_path (s := c.plug (join d nil a w)) rfl
  have hpos : 0 < (join d nil a w).numNodes := by cases d <;> simp [join]
  have hbal := (balanced_join.mp ((balanced_plug _ _).mp h.balanced).2).1
  cases w with
  | nil =>
    cases c with
    | top =>
      cases d <;> simp [join] at hs
    | step e p other rest =>
      have hj : join d nil a nil = (node a nil nil : BinaryTree α) := by cases d <;> rfl
      rw [hj] at h
      exact delete_leaf n h hcount (by omega)
  | node b l r =>
    have hh : (node b l r).height ≤ 1 := by
      rcases d.sign_cases with hd | hd <;> rw [hd] at hbal <;> simp at hbal ⊢ <;> omega
    have hl : l = nil := height_eq_zero.mp (by simp at hh; omega)
    have hr : r = nil := height_eq_zero.mp (by simp at hh; omega)
    subst hl hr
    rw [← join_opp] at h
    exact delete_1child n h hcount (by omega)

omit [DecidableEq α] in
theorem Linked.withCount (h : Linked t s) (n : ℕ) : Linked { t with count := n } s :=
  ⟨⟨h.top, Sub.congr (t := t) (fun _ _ => rfl) h.sub, h.balanced⟩, h.nodup, h.height, h.head,
    h.tail⟩

omit [DecidableEq α] in
/-- What the walk of the tree looks like once the neighbour `b` of `a` on the side `d` is gone. -/
theorem neighbour_gone {c' : Path α} {w : BinaryTree α} {whole : BinaryTree α}
    (hnd : (toList whole).Nodup) (hs : toList whole = pre ++ a :: post)
    (hw : whole = c'.plug (join d.opp nil b w))
    (hr : d = .right → ∃ ys, post = b :: ys) (hl : d = .left → ∃ xs, pre = xs ++ [b])
    (hpre : pre ≠ []) (hpost : post ≠ []) :
    ∃ xs ys, toList (c'.plug w) = xs ++ a :: ys ∧ xs ++ b :: ys = pre ++ post ∧
      b ∉ xs ++ a :: ys ∧ (d = .right → xs ≠ []) ∧ (d = .left → ys ≠ []) := by
  obtain ⟨us, vs, hus, hvs⟩ : ∃ us vs, toList whole = us ++ b :: vs ∧
      toList (c'.plug w) = us ++ vs := by
    cases d with
    | left =>
      refine ⟨(c'.after .left).reverse ++ toList w, c'.after .right, ?_, ?_⟩
      · rw [hw, toList_plug]
        simp [join, Side.opp]
      · rw [toList_plug]
    | right =>
      refine ⟨(c'.after .left).reverse, toList w ++ c'.after .right, ?_, ?_⟩
      · rw [hw, toList_plug]
        simp [join, Side.opp]
      · rw [toList_plug, List.append_assoc]
  rw [hs] at hnd hus
  have hb : b ∉ us ∧ b ∉ vs := by
    rw [hus, List.perm_middle.nodup_iff, List.nodup_cons, List.mem_append, not_or] at hnd
    exact hnd.1
  cases d with
  | left =>
    obtain ⟨xs, rfl⟩ := hl rfl
    rw [List.append_assoc, List.singleton_append] at hus
    have hcut : xs = us ∧ b = b ∧ a :: post = vs := by
      refine (List.append_cons_inj_of_notMem ?_ ?_).mp hus
      · rw [List.append_assoc, List.singleton_append, List.nodup_append] at hnd
        exact fun hm => hnd.2.2 b hm b List.mem_cons_self rfl
      · rw [List.append_assoc, List.singleton_append, List.nodup_append, List.nodup_cons] at hnd
        exact hnd.2.1.1
    obtain ⟨rfl, -, rfl⟩ := hcut
    exact ⟨xs, post, hvs, by simp, by simpa using hb, by simp, fun _ => hpost⟩
  | right =>
    obtain ⟨ys, rfl⟩ := hr rfl
    have hcut : pre ++ [a] = us ∧ b = b ∧ ys = vs := by
      have hus' : (pre ++ [a]) ++ b :: ys = us ++ b :: vs := by simpa using hus
      refine (List.append_cons_inj_of_notMem ?_ ?_).mp hus'
      · rw [show pre ++ a :: b :: ys = (pre ++ [a]) ++ b :: ys by simp, List.nodup_append] at hnd
        exact fun hm => hnd.2.2 b hm b List.mem_cons_self rfl
      · rw [List.nodup_append, List.nodup_cons, List.nodup_cons] at hnd
        exact hnd.2.1.2.1
    obtain ⟨rfl, -, rfl⟩ := hcut
    exact ⟨pre, ys, by simpa using hvs, by simp, by simpa [and_assoc] using hb, fun _ => hpre,
      by simp⟩

/-- The neighbour takes the place of the deleted node. -/
theorem replace_rep {xs ys : List α} (h : Linked t s) (hs : toList s = xs ++ a :: ys)
    (hb : b ∉ xs ++ a :: ys) (hcount : t.count = s.numNodes)
    (hxs : d = .right → xs ≠ []) (hys : d = .left → ys ≠ []) :
    ∃ t', avlhReplace t (.node a) (.node b) = .ok t' ∧
      Lists (moveEnd (setBalance t' (.node b) (t'.cell (.node a)).balance) d.sign (.node a)
        (.node b)) (xs ++ b :: ys) := by
  obtain ⟨c, l, r, rfl, rfl, rfl⟩ := h.split hs
  have hnd := h.nodup
  obtain ⟨t', hrun, hends, -, hshape⟩ := replace_shape h.toShape hnd (by rwa [hs])
  have hlist := (plug_rename c b b l r).1
  rw [hs] at hnd
  have hhead := rename_head (x := b) (toList r ++ c.after .right) hnd (by rw [← hs]; exact h.head)
  have htail := rename_tail (x := b) ((c.after .left).reverse ++ toList l) hnd
    (by rw [← hs]; exact h.tail)
  refine ⟨t', hrun, _, ⟨⟨⟨?_, ?_, hshape.balanced⟩, ?_, ?_, ?_, ?_⟩, ?_⟩, hlist⟩
  · rw [Avl.top, moveEnd_cell]
    exact hshape.top
  · exact hshape.sub.congr fun z _ => by rw [moveEnd_cell]
  · rw [hlist]
    exact mem_rename hnd hb
  · rw [moveEnd_height]
    change t'.height = _
    rw [hends.height, h.height, (plug_rename c a b l r).2]
  · have hset : (setBalance t' (.node b) (t'.cell (.node a)).balance).head = t.head := hends.head
    simp only [moveEnd_head, hlist, hset]
    cases d with
    | left => simpa [Side.sign] using hhead
    | right =>
      rw [if_neg (fun hd => absurd hd.1 (by decide)), h.head, hs]
      cases hx : (c.after .left).reverse ++ toList l with
      | nil => exact absurd hx (hxs rfl)
      | cons p ps => rfl
  · have hset : (setBalance t' (.node b) (t'.cell (.node a)).balance).tail = t.tail := hends.tail
    simp only [moveEnd_tail, hlist, hset]
    cases d with
    | left =>
      rw [if_neg (fun hd => absurd hd.1 (by decide)), h.tail, hs]
      rcases List.eq_nil_or_concat (toList r ++ c.after .right) with hy | ⟨ps, p, hy⟩
      · exact absurd hy (hys rfl)
      · rw [hy]
        simp [List.getLast?_append, List.getLast?_cons]
    | right => simpa [Side.sign] using htail
  · rw [moveEnd_count]
    change t'.count = _
    rw [hends.count, hcount, ← length_toList, ← length_toList, hlist, hs]
    simp

omit [DecidableEq α] in
/-- The side of the neighbour that takes the place of a node. -/
theorem exists_heavy (h : Linked t (c.plug (node a l r))) :
    ∃ e : Side, orElse (t.cell (.node a)).balance 1 = e.sign := by
  have ca := (h.focus rfl).2.1
  have hb : (t.cell (.node a)).balance = balance (node a l r) := by rw [ca]
  have hrange := ((balanced_plug _ _).mp h.balanced).2.range
  apply Side.exists_sign
  unfold orElse
  split_ifs <;> omega

/-- A node with two children. -/
theorem delete_2children (hr : Rep t (c.plug (node a l r)))
    (hs : toList (c.plug (node a l r)) = pre ++ a :: post)
    (hpre : pre = (c.after .left).reverse ++ toList l)
    (hpost : post = toList r ++ c.after .right) (hl : l ≠ nil) (hr' : r ≠ nil) :
    ∃ t', avlDelete t (.node a) = .ok t' ∧ Lists t' (pre ++ post) := by
  have hlen := hs ▸ length_toList (c.plug (node a l r))
  have hcount := hr.count
  simp only [List.length_append, List.length_cons] at hlen
  have hpre₀ : pre ≠ [] := by
    rw [hpre]
    simp [toList_eq_nil, hl]
  have hpost₀ : post ≠ [] := by
    rw [hpost]
    simp [toList_eq_nil, hr']
  have hthree : 3 ≤ t.count := by
    have := List.length_pos_iff.mpr hpre₀
    have := List.length_pos_iff.mpr hpost₀
    omega
  obtain ⟨e, he⟩ := exists_heavy hr.toLinked
  obtain ⟨near, far, hj⟩ := exists_join e a l r
  have hnear : near ≠ nil := by
    cases e
    · injection hj with _ h₁ _
      exact h₁ ▸ hl
    · injection hj with _ _ h₁
      exact h₁ ▸ hr'
  have h₀ : Linked { t with count := t.count - 1 } (c.plug (node a l r)) := hr.toLinked.withCount _
  obtain ⟨c', b, w, hw, hfirst⟩ := exists_first e (.step e a far c) hnear
  rw [Path.plug_step, ← hj] at hw
  have hnext : avlInorder { t with count := t.count - 1 } (.node a) e.sign =
      .ok (some (.node b)) := by
    have hrun := avlInorder_spec (d := e) h₀ (by change _ ≤ t.count - 1 + 1; omega)
      (congrArg c.plug hj)
    rw [hrun, List.head?_append, hfirst]
    rfl
  -- the neighbour leaves its place
  obtain ⟨t₁, s₁, hrun₁, h₁, hs₁, hcount₁⟩ := delete_thin 0 (hw ▸ h₀)
    (by rw [← hw]; omega) (show 1 < t.count - 1 by omega)
    (by rw [← hw]; change _ ≤ t.count - 1 + 1; omega)
  change t₁.count = t.count - 1 - 1 at hcount₁
  obtain ⟨xs, ys, hgone, hmerge, hb, hxs, hys⟩ := neighbour_gone (d := e) hr.nodup hs hw
    (by
      rintro rfl
      injection hj with _ _ h₁
      rw [← h₁] at hfirst
      obtain ⟨ys, hy⟩ := List.head?_eq_some_iff.mp hfirst
      exact ⟨ys ++ c.after .right, by rw [hpost, show toList r = b :: ys from hy]; rfl⟩)
    (by
      rintro rfl
      injection hj with _ h₁ _
      rw [← h₁] at hfirst
      obtain ⟨xs, hx⟩ := List.getLast?_eq_some_iff.mp
        ((List.head?_reverse (l := toList l)).symm.trans hfirst)
      exact ⟨(c.after .left).reverse ++ xs, by rw [hpre, hx, List.append_assoc]⟩)
    hpre₀ hpost₀
  -- and takes that of the node
  have hlen₁ : s₁.numNodes = t₁.count + 1 := by
    have hperm := congrArg List.length hmerge
    rw [← length_toList, hs₁, hgone]
    simp only [List.length_append, List.length_cons] at hperm ⊢
    omega
  obtain ⟨t₂, hrun₂, h₂⟩ := replace_rep (h₁.withCount (t₁.count + 1)) (hs₁.trans hgone) hb
    hlen₁.symm hxs hys
  refine ⟨_, ?_, hmerge ▸ h₂⟩
  have hlink : (∃ x, (t.cell (.node a)).link (-1) = some x) ∧
      ∃ x, (t.cell (.node a)).link 1 = some x := by
    have ca := (hr.focus rfl).2.1
    rw [ca]
    cases l with
    | nil => exact absurd rfl hl
    | node x l₁ l₂ =>
      cases r with
      | nil => exact absurd rfl hr'
      | node y r₁ r₂ => exact ⟨⟨_, rfl⟩, ⟨_, rfl⟩⟩
  obtain ⟨⟨x, hx⟩, ⟨y, hy⟩⟩ := hlink
  have hne : t.count - 1 ≠ 0 := by omega
  have hback : deleteWith 1 { t with count := t.count - 1 } (.node b) = .ok t₁ := hrun₁
  rw [avlDelete, deleteWith]
  simp only [hne, if_false, hx, hy, he, hnext, ok_bind, deref_some, hback, hrun₂]
  rfl

/-- `avl_delete` takes a node out of the list. -/
theorem avlDelete_spec (h : Lists t (pre ++ a :: post)) :
    ∃ t', avlDelete t (.node a) = .ok t' ∧ Lists t' (pre ++ post) := by
  obtain ⟨s, hr, hs⟩ := h
  obtain ⟨c, l, r, rfl, hpre, hpost⟩ := hr.split hs
  have hcount := hr.count
  by_cases hone : pre ++ post = []
  · obtain ⟨hp, hq⟩ := List.append_eq_nil_iff.mp hone
    subst hp hq
    obtain ⟨hc₁, hl⟩ := List.append_eq_nil_iff.mp hpre.symm
    obtain ⟨hr', hc₂⟩ := List.append_eq_nil_iff.mp hpost.symm
    have hl := toList_eq_nil.mp hl
    have hr' := toList_eq_nil.mp hr'
    subst hl hr'
    cases c with
    | top => exact delete_last 1 hr
    | step e p other rest => cases e <;> simp [Path.after] at hc₁ hc₂
  have hlen := hs ▸ length_toList (c.plug (node a l r))
  have hpos : 0 < (pre ++ post).length := List.length_pos_iff.mpr hone
  simp only [List.length_append, List.length_cons] at hlen hpos
  -- one child
  have hthin {d : Side} {w : BinaryTree α} (hj : node a l r = join d nil a w)
      (hw : toList (c.plug w) = pre ++ post) :
      ∃ t', avlDelete t (.node a) = .ok t' ∧ Lists t' (pre ++ post) := by
    have hlink := hr.toLinked
    rw [hj] at hlink hcount hlen
    obtain ⟨t', s', hrun, hlinked, hlist, hc'⟩ := delete_thin 1 hlink (by omega) (by omega)
      (by omega)
    refine ⟨t', hrun, s', ⟨hlinked, ?_⟩, hlist.trans hw⟩
    rw [hc', hcount, ← length_toList, ← length_toList, hlist, hw, ← hj, hs]
    simp
  by_cases hl : l = nil
  · subst hl
    refine hthin (d := .left) rfl ?_
    rw [toList_plug, hpre, hpost]
    simp
  by_cases hr' : r = nil
  · subst hr'
    refine hthin (d := .right) rfl ?_
    rw [toList_plug, hpre, hpost]
    simp
  exact delete_2children hr hs hpre hpost hl hr'

/-- `avl_delete`, of any listed node. -/
theorem avlDelete_erase {as : List α} (h : Lists t as) (ha : a ∈ as) :
    ∃ t', avlDelete t (.node a) = .ok t' ∧ Lists t' (as.erase a) := by
  obtain ⟨pre, post, rfl⟩ := List.append_of_mem ha
  have hnd := (List.nodup_cons.mp (List.perm_middle.nodup h.nodup)).1
  have hpre : a ∉ pre := fun hm => hnd (List.mem_append_left _ hm)
  rw [List.erase_append_right _ hpre, List.erase_cons_head]
  exact avlDelete_spec h

end Libevl.AvlTree
