import Libevl.AvlSpec

/-!
# Insertion, replacement and deletion

What the updates of a tree do to the list of its nodes.
-/
namespace Libevl.AvlTree
open BinaryTree TreePath

variable {α : Type} [DecidableEq α] {t : Avl α} {s : BinaryTree α} {c : Path α} {d : Side}
  {a x : α} {w : BinaryTree α} {pre post as : List α} {cmp : α → ℤ}

section Insert

/-- The cells after a node has been attached. -/
theorem avlhAttach_cells {ty b : ℤ} {p u far : Option (Ref α)}
    (ca : t.cell (.node a) = holder d ty b p u far) (hax : a ≠ x) :
    (avlhAttach t (.node a) (.node x) d.sign).cell (.node x) =
        ⟨d.sign, (t.cell (.node x)).balance, none, some (.node a), none⟩ ∧
      (avlhAttach t (.node a) (.node x) d.sign).cell (.node a) =
        holder d ty b (some (.node x)) u far ∧
      ∀ z, z ≠ .node a → z ≠ .node x →
        (avlhAttach t (.node a) (.node x) d.sign).cell z = t.cell z := by
  have h₁ : Ref.node a ≠ .node x := by simpa using hax
  refine ⟨?_, ?_, fun z hz hz' => ?_⟩
  · simp [avlhAttach, avlhSetLink, setType, modify_of_ne, h₁.symm, Avlh.setLink, Avlh.setType]
  · simp [avlhAttach, avlhSetLink, setType, modify_of_ne, h₁, ca]
  · simp [avlhAttach, avlhSetLink, setType, modify_of_ne, hz, hz']

omit [DecidableEq α] in
/-- A node hung below `a` stands next to it in the walk. -/
theorem toList_attach (c : Path α) (d : Side) (a x : α) (w : BinaryTree α) :
    toList ((Path.step d a w c).plug (node x nil nil)) =
        ((Path.step d a w c).after .left).reverse ++ x :: (Path.step d a w c).after .right ∧
      toList (c.plug (join d nil a w)) =
        ((Path.step d a w c).after .left).reverse ++ (Path.step d a w c).after .right := by
  rw [← Path.plug_step d a w nil c, toList_plug, toList_plug]
  simp

omit [DecidableEq α] in
/-- The parent is the neighbour of the new node. -/
theorem after_attach (c : Path α) (d : Side) (a : α) (w : BinaryTree α) :
    (d = .left → ∃ ys, (Path.step d a w c).after .right = a :: ys) ∧
      (d = .right → ∃ xs, ((Path.step d a w c).after .left).reverse = xs ++ [a]) := by
  constructor
  · rintro rfl
    exact ⟨_, rfl⟩
  · rintro rfl
    exact ⟨_, List.reverse_cons⟩

/-- An end that is the old node becomes the new one. -/
theorem rename_head (ys : List α) (hnd : (pre ++ a :: post).Nodup)
    (h : t.head = (pre ++ a :: post).head?.map .node) :
    (if some (.node a) = t.head then some (.node x) else t.head) =
      (pre ++ x :: ys).head?.map .node := by
  cases pre with
  | nil => simp [h]
  | cons p ps =>
    have hne : a ≠ p := by
      rintro rfl
      simp at hnd
    rw [if_neg (by simpa [h] using hne), h]
    rfl

theorem rename_tail (xs : List α) (hnd : (pre ++ a :: post).Nodup)
    (h : t.tail = (pre ++ a :: post).getLast?.map .node) :
    (if some (.node a) = t.tail then some (.node x) else t.tail) =
      (xs ++ x :: post).getLast?.map .node := by
  rcases List.eq_nil_or_concat post with rfl | ⟨ps, p, rfl⟩
  · simp [h]
  · have hlast (qs : List α) (y : α) : (qs ++ y :: ps.concat p).getLast? = some p := by
      rw [show qs ++ y :: ps.concat p = (qs ++ y :: ps) ++ [p] by simp, List.getLast?_concat]
    have hne : a ≠ p := by
      rintro rfl
      simp [List.nodup_append] at hnd
    rw [hlast] at h ⊢
    rw [if_neg (by simpa [h] using hne), h]

/-- The end on the side of the new node moves when its parent was that end. -/
theorem attach_ends {t' : Avl α} (hnd : (pre ++ post).Nodup)
    (hhead : t.head = (pre ++ post).head?.map .node)
    (htail : t.tail = (pre ++ post).getLast?.map .node)
    (hl : d = .left → ∃ ys, post = a :: ys) (hr : d = .right → ∃ xs, pre = xs ++ [a])
    (ht : t' = moveEnd t d.sign (.node a) (.node x)) :
    t'.head = (pre ++ x :: post).head?.map .node ∧
      t'.tail = (pre ++ x :: post).getLast?.map .node := by
  rw [ht, moveEnd_head, moveEnd_tail]
  cases d with
  | left =>
    obtain ⟨ys, rfl⟩ := hl rfl
    have hmoved := rename_head (x := x) (a :: ys) hnd hhead
    refine ⟨by simpa [Side.sign] using hmoved, ?_⟩
    rw [if_neg (fun hd => absurd hd.1 (by decide)), htail]
    simp [List.getLast?_append, List.getLast?_cons]
  | right =>
    obtain ⟨xs, rfl⟩ := hr rfl
    rw [List.append_assoc, List.singleton_append] at hnd hhead htail
    have hmoved := rename_tail (x := x) (xs ++ [a]) hnd htail
    refine ⟨?_, by simpa [Side.sign] using hmoved⟩
    rw [if_neg (fun hd => absurd hd.1 (by decide)), hhead]
    cases xs <;> rfl

/-- A node is attached below `a`, on the side where it has no child. -/
theorem avlInsertInner_spec (h : Rep t s) (hs : s = c.plug (join d nil a w)) (hx : x ∉ toList s)
    (hb : (t.cell (.node x)).balance = 0) :
    ∃ t' s', avlInsertInner t (some (.node a)) (.node x) d.sign = .ok t' ∧ Rep t' s' ∧
      toList s' = toList ((Path.step d a w c).plug (node x nil nil)) := by
  obtain ⟨hc, hsub⟩ := h.focus hs
  have hnd := h.nodup_focus hs
  have hlen := h.length_path hs
  obtain ⟨ca, -, hw⟩ := sub_join.mp hsub
  have hbal := h.balanced
  rw [hs, balanced_plug, balanced_join, height_join] at hbal
  obtain ⟨hbc, hbw, -, hbal⟩ := hbal
  have hxs : x ∉ c.nodes ++ toList (join d nil a w) := by
    rw [hs] at hx
    exact fun hm => hx ((nodes_perm c _).mem_iff.mpr hm)
  simp only [List.mem_append, mem_join, not_or] at hxs
  obtain ⟨hxc, hxa, -, hxw⟩ := hxs
  have ndj := (List.Perm.nodup_iff ((join_perm d nil a w).append_left c.nodes)).mp hnd
  simp only [toList_nil, List.nil_append, List.nodup_append, List.nodup_cons, List.mem_cons] at ndj
  obtain ⟨ndc, ⟨haw, ndw⟩, hca⟩ := ndj
  have hac : a ∉ c.nodes := fun hm => hca a hm a (.inl rfl) rfl
  obtain ⟨cx₁, ca₁, ho₁⟩ := avlhAttach_cells ca (Ne.symm hxa)
  let t₁ := avlhAttach t (.node a) (.node x) d.sign
  let t₂ : Avl α := { t₁ with count := t₁.count + 1 }
  let t₃ := moveEnd t₂ d.sign (.node a) (.node x)
  let t₄ := setBalance t₃ (.node a) ((t₃.cell (.node a)).balance + d.sign)
  have hcell₃ : t₃.cell = t₁.cell := moveEnd_cell ..
  have hends₃ : t₃.count = t.count + 1 ∧ t₃.height = t.height :=
    ⟨moveEnd_count .., moveEnd_height ..⟩
  -- the subtree at `a` with its new child
  have hwh : w.height ≤ 1 := by
    rcases d.sign_cases with hd | hd <;> rw [hd] at hbw <;> simp at hbw <;> omega
  have hwr := w.height.zero_le
  have ca₄ : t₄.cell (.node a) = holder d (type c) (balance (join d (node x nil nil) a w))
      (some (.node x)) (some (up c)) (root w) := by
    have hnarrow : narrow2 (d.sign * (((0 : ℕ) : ℤ) - w.height) + d.sign) =
        d.sign * (((1 : ℕ) : ℤ) - w.height) := by
      rw [narrow2_eq] <;> rcases d.sign_cases with hd | hd <;> rw [hd] <;> omega
    rw [balance_join] at ca₁ ⊢
    simp only [t₄, setBalance_self, hcell₃, t₁, ca₁, holder_balance, holder_setBalance]
    congr 1
  have ho₄ {z : Ref α} (hz : z ≠ .node a) (hz' : z ≠ .node x) : t₄.cell z = t.cell z := by
    rw [setBalance_of_ne _ _ _ hz, hcell₃]
    exact ho₁ z hz hz'
  have hsub₄ : Sub t₄ (up c) (type c) (join d (node x nil nil) a w) := by
    refine sub_join.mpr ⟨ca₄, ⟨?_, trivial, trivial⟩, hw.congr fun z hz => ho₄ ?_ ?_⟩
    · rw [setBalance_of_ne _ _ _ (by simpa using hxa), hcell₃, cx₁, hb]
      simp [balance]
    · rintro ⟨⟩
      exact haw hz
    · rintro ⟨⟩
      exact hxw hz
  have hc₄ : Around t₄ c (w.height + 1) (some (.node a)) := by
    rw [root_join, height_join] at hc
    have hc' : Around t₄ c _ _ := hc.congr (fun z hz => ho₄ ?_ ?_) (ho₄ (by simp) (by simp))
    · simpa using hc'
    · rintro ⟨⟩
      exact hac hz
    · rintro ⟨⟩
      exact hxc hz
  obtain ⟨hnew, hold⟩ := toList_attach c d a x w
  rw [← hs] at hold
  have hnodup : (toList ((Path.step d a w c).plug (node x nil nil))).Nodup := by
    have hns := h.nodup
    rw [hold] at hns hx
    rw [hnew]
    exact (List.Perm.nodup_iff List.perm_middle).mpr (List.nodup_cons.mpr ⟨hx, hns⟩)
  have hbal₄ : balance (join d (node x nil nil) a w) = d.sign * (1 - w.height) := by
    rw [balance_join]
    simp
  have hh₄ : (join d (node x nil nil) a w).height = max 1 w.height + 1 := by
    rw [height_join]
    simp
  obtain ⟨t', s', hrun, hshape, hheight, hlist, hsame⟩ := growLoop_spec (t := t₄) (h := w.height + 1)
    t₄.fuel (x := .node a) (s := join d (node x nil nil) a w) (by
      change c.length < t₃.count + 2
      rw [hends₃.1]
      omega) (root_join ..) hsub₄ (by rwa [root_join])
    (by
      rw [balanced_join]
      refine ⟨?_, ?_, hbal⟩
      · rcases d.sign_cases with hd | hd <;> rw [hd] <;> simp <;> omega
      · simp [TreePath.Balanced, balance])
    (by simpa using hbc) ((nodes_perm _ _).nodup_iff.mp hnodup)
    (by
      rw [hbal₄, hh₄]
      rcases d.sign_cases with hd | hd <;> rw [hd] <;> omega)
    (by
      change t₃.height = _
      rw [hends₃.2, h.height, hs, height_plug, height_join]
      simp)
  obtain ⟨hl, hr⟩ := after_attach c d a w
  obtain ⟨hhead, htail⟩ := attach_ends (t := t₂) (x := x) (hold ▸ h.nodup)
    (by rw [← hold]; exact h.head) (by rw [← hold]; exact h.tail) hl hr (show t₃ = _ from rfl)
  rw [← Path.plug_step] at hlist
  refine ⟨t', s', hrun, ⟨⟨hshape, by rwa [hlist], hheight, ?_, ?_⟩, ?_⟩, hlist⟩
  · rw [hsame.head, hlist, hnew]
    exact hhead
  · rw [hsame.tail, hlist, hnew]
    exact htail
  · rw [hsame.count, ← length_toList, hlist, hnew]
    change t₃.count = _
    rw [hends₃.1, h.count, ← length_toList, hold]
    simp only [List.length_append, List.length_cons]
    omega

/-- The first node of a tree. -/
theorem avlInsertInner_nil (h : Rep t nil) (hb : (t.cell (.node x)).balance = 0) :
    ∃ t', avlInsertInner t none (.node x) 1 = .ok t' ∧ Rep t' (node x nil nil) := by
  refine ⟨_, rfl, ⟨⟨?_, ⟨?_, trivial, trivial⟩, by simp [TreePath.Balanced, balance]⟩,
    by simp, ?_, rfl, rfl⟩, ?_⟩
  · simp [avlhAttach, avlhSetLink, setType, Avl.top, modify_of_ne, Avlh.setLink]
  · simp [avlhAttach, avlhSetLink, setType, modify_of_ne, Avlh.setLink, Avlh.setType, hb, balance,
      narrow2]
  · simp [avlhAttach, avlhSetLink, setType, h.height]
  · simp [avlhAttach, avlhSetLink, setType, h.count]

/-- A search with the key of the new node, then the insertion. -/
theorem insert_at_search {dir : ℤ} (h : Lists t (pre ++ post)) (hx : x ∉ pre ++ post)
    (hb : (t.cell (.node x)).balance = 0) (hcmp : ∀ y, cmp y = -1 ∨ cmp y = 0 ∨ cmp y = 1)
    (hdir : dir = 0 ∨ dir = 1) (hpre : ∀ p ∈ pre, 0 < orElse (cmp p) dir)
    (hpost : ∀ p ∈ post, orElse (cmp p) dir < 0) :
    ∃ parent delta t', search t cmp dir = .ok (parent, delta) ∧ orElse delta dir ≠ 0 ∧
      avlInsertInner t parent (.node x) (orElse delta dir) = .ok t' ∧ Lists t' (pre ++ x :: post) := by
  obtain ⟨s, hr, hs⟩ := h
  by_cases hne : s = nil
  · subst hne
    obtain ⟨rfl, rfl⟩ := List.append_eq_nil_iff.mp hs.symm
    obtain ⟨t', hrun, hrep⟩ := avlInsertInner_nil hr hb
    exact ⟨none, 1, t', search_nil hr, by simp [orElse], hrun, _, hrep, rfl⟩
  · obtain ⟨c, a, w, d, hplug, hsearch, hd, rfl, rfl⟩ :=
      search_position hr hne hcmp hdir hs hpre hpost
    obtain ⟨t', s', hrun, hrep, hlist⟩ := avlInsertInner_spec hr hplug (by rwa [hs]) hb
    refine ⟨some (.node a), cmp a, t', hsearch, ?_, by rwa [hd], s', hrep, ?_⟩
    · rw [hd]
      cases d <;> decide
    · rw [hlist, (toList_attach c d a x w).1]

/-- `avl_insert` puts a node between the smaller and the larger keys. -/
theorem avlInsert_spec (debug : Bool) (h : Lists t (pre ++ post)) (hx : x ∉ pre ++ post)
    (hb : (t.cell (.node x)).balance = 0) (hcmp : ∀ y, cmp y = -1 ∨ cmp y = 0 ∨ cmp y = 1)
    (hpre : ∀ p ∈ pre, 0 < cmp p) (hpost : ∀ p ∈ post, cmp p < 0) :
    ∃ t', avlInsert debug t (.node x) cmp = .ok t' ∧ Lists t' (pre ++ x :: post) := by
  have hor (y : ℤ) : orElse y 0 = y := by
    unfold orElse
    split_ifs with hy
    · rfl
    · exact (not_not.mp hy).symm
  obtain ⟨parent, delta, t', hsearch, hne, hrun, hlist⟩ := insert_at_search h hx hb hcmp
    (show (0 : ℤ) = 0 ∨ (0 : ℤ) = 1 from .inl rfl) (fun p hp => by rw [hor]; exact hpre p hp)
    (fun p hp => by rw [hor]; exact hpost p hp)
  rw [hor] at hne hrun
  exact ⟨t', by simp [avlInsert, hsearch, assert, hne, hrun], hlist⟩

/-- `avl_insert_back` puts a node behind the keys that are not larger. -/
theorem avlInsertBack_spec (h : Lists t (pre ++ post)) (hx : x ∉ pre ++ post)
    (hb : (t.cell (.node x)).balance = 0) (hcmp : ∀ y, cmp y = -1 ∨ cmp y = 0 ∨ cmp y = 1)
    (hpre : ∀ p ∈ pre, 0 ≤ cmp p) (hpost : ∀ p ∈ post, cmp p < 0) :
    ∃ t', avlInsertBack t (.node x) cmp = .ok t' ∧ Lists t' (pre ++ x :: post) := by
  obtain ⟨parent, delta, t', hsearch, -, hrun, hlist⟩ := insert_at_search h hx hb hcmp
    (show (1 : ℤ) = 0 ∨ (1 : ℤ) = 1 from .inr rfl)
    (fun p hp => by
      have := hpre p hp
      unfold orElse
      split_ifs <;> omega)
    (fun p hp => by
      have := hpost p hp
      unfold orElse
      split_ifs <;> omega)
  exact ⟨t', by simp [avlInsertBack, hsearch, hrun], hlist⟩

/-- `avl_prepend` puts a node in front of all others. -/
theorem avlPrepend_spec (debug : Bool) (h : Lists t as) (hx : x ∉ as)
    (hb : (t.cell (.node x)).balance = 0) (hcmp : ∀ a, as.head? = some a → cmp a < 0) :
    ∃ t', avlPrepend debug t (.node x) cmp = .ok t' ∧ Lists t' (x :: as) := by
  obtain ⟨s, hr, rfl⟩ := h
  have hhead := hr.head
  rcases hlist : toList s with _ | ⟨a, as⟩
  · have hs := toList_eq_nil.mp hlist
    subst hs
    obtain ⟨t', hrun, hrep⟩ := avlInsertInner_nil hr hb
    exact ⟨t', by simpa [avlPrepend, hhead, assertCmp] using hrun, _, hrep, rfl⟩
  · rw [hlist] at hcmp
    obtain ⟨c, l, r, rfl, hpre, -⟩ := hr.split (show toList s = [] ++ a :: as from hlist)
    obtain ⟨hc, hl⟩ := List.append_eq_nil_iff.mp hpre.symm
    have hl := toList_eq_nil.mp hl
    subst hl
    obtain ⟨t', s', hrun, hrep, hnew⟩ := avlInsertInner_spec (d := .left) (w := r) hr rfl hx hb
    rw [hlist] at hhead
    refine ⟨t', ?_, s', hrep, ?_⟩
    · have ha := hcmp a rfl
      change avlInsertInner t (some (.node a)) (.node x) (-1) = .ok t' at hrun
      simpa [avlPrepend, hhead, assertCmp, assert, ha] using hrun
    · have hold := (toList_attach c .left a x r).2
      change toList (c.plug (node a nil r)) = _ at hold
      rw [hnew, (toList_attach c .left a x r).1, ← hlist, hold]
      simp [Path.after, hc]

end Insert

section Replace

variable {l r : BinaryTree α} {h : ℕ} {b : ℤ}

/-- The children of `a` become those of `x`. -/
theorem avlhLinkChild_cells {e : Side} {u : BinaryTree α} {ty b : ℤ} {p q : Option (Ref α)}
    (ca : t.cell (.node a) = holder e ty b (root u) p q) (hu : Sub t (.node a) e.sign u)
    (nd : (toList u).Nodup) (hau : a ∉ toList u) (hxu : x ∉ toList u) (hax : a ≠ x) :
    let t' := avlhLinkChild t (.node a) (.node x) e.sign
    SameEnds t t' ∧ t'.cell (.node x) = (t.cell (.node x)).setLink e.sign (root u) ∧
      Sub t' (.node x) e.sign u ∧
      ∀ z, z ≠ .node x → (∀ y ∈ toList u, z ≠ .node y) → t'.cell z = t.cell z := by
  have hxa : Ref.node x ≠ .node a := by simpa using Ne.symm hax
  cases u with
  | nil =>
    have ht : avlhLinkChild t (.node a) (.node x) e.sign =
        avlhSetLink t (.node x) e.sign none := by
      simp [avlhLinkChild, ca]
    rw [ht]
    refine ⟨⟨rfl, rfl, rfl, rfl⟩, ?_, trivial, fun z hz _ => ?_⟩
    · simp [avlhSetLink]
    · simp [avlhSetLink, modify_of_ne, hz]
  | node y l r =>
    have hxy : Ref.node x ≠ .node y := by
      rintro ⟨⟩
      simp at hxu
    have ht : avlhLinkChild t (.node a) (.node x) e.sign =
        avlhSetLink (avlhSetLink t (.node x) e.sign (some (.node y))) (.node y) 0
          (some (.node x)) := by
      simp [avlhLinkChild, ca]
    rw [ht]
    refine ⟨⟨rfl, rfl, rfl, rfl⟩, ?_, hu.rehang nd (fun z hz => ?_) fun z hz hne => ?_,
      fun z hz hz' => ?_⟩
    · simp [avlhSetLink, modify_of_ne, hxy]
    · cases hz
      rw [avlhSetLink, modify_self, avlhSetLink, modify_of_ne _ _ _ hxy.symm, hu.1]
      cases e <;> rfl
    · have hzx : Ref.node z ≠ .node x := by
        rintro ⟨⟩
        exact hxu hz
      have hzy : Ref.node z ≠ .node y := fun h => hne (by rw [h]; rfl)
      rw [avlhSetLink, modify_of_ne _ _ _ hzy, avlhSetLink, modify_of_ne _ _ _ hzx]
    · rw [avlhSetLink, modify_of_ne _ _ _ (hz' y (by simp)), avlhSetLink, modify_of_ne _ _ _ hz]

/-- `avlh_replace` puts `x` in the place of `a`. -/
theorem avlhReplace_spec
    (ca : t.cell (.node a) = ⟨type c, b, root l, some (up c), root r⟩)
    (hl : Sub t (.node a) (-1) l) (hr : Sub t (.node a) 1 r)
    (hc : Around t c h (some (.node a)))
    (nd : (c.nodes ++ a :: (toList l ++ toList r)).Nodup)
    (hx : x ∉ c.nodes ++ a :: (toList l ++ toList r)) :
    ∃ t', avlhReplace t (.node a) (.node x) = .ok t' ∧ SameEnds t t' ∧
      t'.cell (.node x) = ⟨type c, (t.cell (.node x)).balance, root l, some (up c), root r⟩ ∧
      t'.cell (.node a) = t.cell (.node a) ∧ Sub t' (.node x) (-1) l ∧ Sub t' (.node x) 1 r ∧
      Around t' c h (some (.node x)) := by
  simp only [List.nodup_append, List.nodup_cons, List.mem_append, List.mem_cons, not_or] at nd hx
  obtain ⟨hxc, hxa, hxl, hxr⟩ := hx
  obtain ⟨ndc, ⟨⟨hal, har⟩, ndl, ndr, hlr⟩, hca⟩ := nd
  have hax : Ref.node a ≠ .node x := by simpa using Ne.symm hxa
  have hua : up c ≠ .node a := up_ne fun hm => hca a hm a (.inl rfl) rfl
  have hux : up c ≠ .node x := up_ne hxc
  -- the type, the parent, and the link of the parent
  let t₁ := avlhSetLink (setType t (.node x) (type c)) (.node x) 0 (some (up c))
  let t₂ := avlhSetLink t₁ (up c) (type c) (some (.node x))
  have ho₂ {z : Ref α} (hz : z ≠ up c) (hz' : z ≠ .node x) : t₂.cell z = t.cell z := by
    simp [t₂, t₁, avlhSetLink, setType, modify_of_ne, hz, hz']
  have cx₂ : t₂.cell (.node x) = ((t.cell (.node x)).setType (type c)).setLink 0 (some (up c)) := by
    simp [t₂, t₁, avlhSetLink, setType, modify_of_ne, hux.symm]
  have hne {z : α} (hz : z ∈ toList l ∨ z ∈ toList r) :
      Ref.node z ≠ up c ∧ Ref.node z ≠ .node x := by
    refine ⟨(up_ne fun hm => hca z hm z (.inr hz) rfl).symm, ?_⟩
    rintro ⟨⟩
    rcases hz with hz | hz
    · exact hxl hz
    · exact hxr hz
  have hc₂ : Around t₂ c h (some (.node x)) := by
    refine hc.relink ndc ?_ fun z hz hz' => ho₂ hz' ?_
    · simp [t₂, t₁, avlhSetLink, setType, modify_of_ne, hux]
    · rcases hz with rfl | ⟨w, hw, rfl⟩
      · simp
      · rintro ⟨⟩
        exact hxc hw
  have ca₂ : t₂.cell (.node a) = t.cell (.node a) := ho₂ hua.symm hax
  have hl₂ : Sub t₂ (.node a) (-1) l := hl.congr fun z hz => ho₂ (hne (.inl hz)).1 (hne (.inl hz)).2
  have hr₂ : Sub t₂ (.node a) 1 r := hr.congr fun z hz => ho₂ (hne (.inr hz)).1 (hne (.inr hz)).2
  -- the two children
  obtain ⟨he₃, cx₃, hl₃, ho₃⟩ := avlhLinkChild_cells (t := t₂) (e := .left) (u := l)
    (ca₂.trans ca) hl₂ ndl hal hxl (Ne.symm hxa)
  set t₃ := avlhLinkChild t₂ (.node a) (.node x) Side.left.sign
  have ca₃ : t₃.cell (.node a) = t₂.cell (.node a) := ho₃ _ hax (by
    rintro y hy ⟨⟩
    exact hal hy)
  have hr₃ : Sub t₃ (.node a) 1 r := hr₂.congr fun z hz => ho₃ _ (hne (.inr hz)).2 (by
    rintro y hy ⟨⟩
    exact hlr z hy z hz rfl)
  obtain ⟨he₄, cx₄, hr₄, ho₄⟩ := avlhLinkChild_cells (t := t₃) (e := .right) (u := r)
    (ca₃.trans (ca₂.trans ca)) hr₃ ndr har hxr (Ne.symm hxa)
  set t₄ := avlhLinkChild t₃ (.node a) (.node x) Side.right.sign
  refine ⟨t₄, ?_, ?_, ?_, ?_, ?_, hr₄, ?_⟩
  · simp [avlhReplace, avlhSetParentLink, avlhSetLink, setType, modify_of_ne, hax, ca]
    rfl
  · have he₂ : SameEnds t t₂ := ⟨rfl, rfl, rfl, rfl⟩
    exact (he₂.trans he₃).trans he₄
  · rw [cx₄, cx₃, cx₂]
    simp [Avlh.setLink, Avlh.setType, Side.sign]
  · rw [ho₄ _ hax, ca₃, ca₂]
    rintro y hy ⟨⟩
    exact har hy
  · refine hl₃.congr fun z hz => ho₄ _ (hne (.inl hz)).2 ?_
    rintro y hy ⟨⟩
    exact hlr z hz z hy rfl
  · refine hc₂.congr (fun z hz => ?_) ?_
    · have hzx : Ref.node z ≠ .node x := by
        rintro ⟨⟩
        exact hxc hz
      rw [ho₄ _ hzx, ho₃ _ hzx]
      · rintro y hy ⟨⟩
        exact hca z hz z (.inr (.inl hy)) rfl
      · rintro y hy ⟨⟩
        exact hca z hz z (.inr (.inr hy)) rfl
    · rw [ho₄ _ (by simp) (by simp), ho₃ _ (by simp) (by simp)]

omit [DecidableEq α] in
theorem plug_rename (c : Path α) (a x : α) (l r : BinaryTree α) :
    toList (c.plug (node a l r)) =
        (c.after .left).reverse ++ toList l ++ a :: (toList r ++ c.after .right) ∧
      (c.plug (node x l r)).height = (c.plug (node a l r)).height := by
  constructor
  · rw [toList_plug]
    simp
  · rw [height_plug, height_plug]
    rfl

/-- A linked node is exchanged for one that is not linked, with its balance. -/
theorem replace_shape (hs : Shape t (c.plug (node a l r)))
    (nd : (toList (c.plug (node a l r))).Nodup) (hx : x ∉ toList (c.plug (node a l r))) :
    ∃ t', avlhReplace t (.node a) (.node x) = .ok t' ∧ SameEnds t t' ∧
      t'.cell (.node a) = t.cell (.node a) ∧
      Shape (setBalance t' (.node x) (t'.cell (.node a)).balance) (c.plug (node x l r)) := by
  obtain ⟨hc, ca, hl, hr⟩ := around_plug.mpr ⟨hs.top, hs.sub⟩
  have hperm : (toList (c.plug (node a l r))).Perm (c.nodes ++ a :: (toList l ++ toList r)) :=
    (nodes_perm c _).trans (List.perm_middle.append_left _)
  obtain ⟨t', hrun, hends, cx, ca', hl', hr', hc'⟩ := avlhReplace_spec ca hl hr hc
    (hperm.nodup_iff.mp nd) (fun hm => hx (hperm.mem_iff.mpr hm))
  have hbal := (balanced_plug c _).mp hs.balanced
  have hxs : x ∉ c.nodes ++ a :: (toList l ++ toList r) := fun hm => hx (hperm.mem_iff.mpr hm)
  simp only [List.mem_append, List.mem_cons, not_or] at hxs
  have ho {z : Ref α} (hz : z ≠ .node x) :
      (setBalance t' (.node x) (t'.cell (.node a)).balance).cell z = t'.cell z :=
    setBalance_of_ne _ _ _ hz
  have hne {z : α} (hz : z ∈ c.nodes ∨ z ∈ toList l ∨ z ∈ toList r) : Ref.node z ≠ .node x := by
    rintro ⟨⟩
    tauto
  refine ⟨t', hrun, hends, ca', shape_plug ⟨?_, ?_, ?_⟩ ?_ hbal.1 hbal.2⟩
  · rw [setBalance_self, cx, ca', ca]
    simp only [Avlh.setBalance]
    rw [narrow2_eq hbal.2.1]
    rfl
  · exact hl'.congr fun z hz => ho (hne (.inr (.inl hz)))
  · exact hr'.congr fun z hz => ho (hne (.inr (.inr hz)))
  · exact hc'.congr (fun z hz => ho (hne (.inl hz))) (ho (by simp))

omit [DecidableEq α] in
theorem mem_rename {xs ys : List α} (hnd : (xs ++ a :: ys).Nodup) (hx : x ∉ xs ++ a :: ys) :
    (xs ++ x :: ys).Nodup := by
  rw [List.perm_middle.nodup_iff, List.nodup_cons] at hnd ⊢
  refine ⟨fun hm => hx ?_, hnd.2⟩
  simp only [List.mem_append, List.mem_cons] at hm ⊢
  tauto

/-- `avl_replace` exchanges a node for one with a key between its neighbours. -/
theorem avlReplace_spec (debug : Bool) (h : Lists t (pre ++ a :: post))
    (hx : x ∉ pre ++ a :: post) (hprev : ∀ p, pre.getLast? = some p → 0 ≤ cmp p)
    (hnext : ∀ n, post.head? = some n → cmp n ≤ 0) :
    ∃ t', avlReplace debug t (.node a) (.node x) cmp = .ok t' ∧ Lists t' (pre ++ x :: post) := by
  have hp := avlPrev_spec h
  have hn := avlNext_spec h
  have hcp : assertCmp debug cmp (pre.getLast?.map .node) (¬ · < 0) = .ok () := by
    cases hl : pre.getLast? with
    | none => rfl
    | some p => simp [assertCmp, assert, hprev p hl]
  have hcn : assertCmp debug cmp (post.head?.map .node) (¬ 0 < ·) = .ok () := by
    cases hl : post.head? with
    | none => rfl
    | some n => simp [assertCmp, assert, hnext n hl]
  obtain ⟨s, hr, hs⟩ := h
  obtain ⟨c, l, r, rfl, rfl, rfl⟩ := hr.split hs
  have hnd := hr.nodup
  obtain ⟨t₁, hrun, hends, ca, hshape⟩ := replace_shape hr.toShape hnd (by rwa [hs])
  have hlist := (plug_rename c x x l r).1
  rw [hs] at hnd
  have hhead := rename_head (x := x) (toList r ++ c.after .right) hnd (by rw [← hs]; exact hr.head)
  have htail := rename_tail (x := x) ((c.after .left).reverse ++ toList l) hnd
    (by rw [← hs]; exact hr.tail)
  rw [← hends.head] at hhead
  rw [← hends.tail] at htail
  let t₂ := moveEnd (moveEnd t₁ (-1) (.node a) (.node x)) 1 (.node a) (.node x)
  have hcell : t₂.cell = t₁.cell := (moveEnd_cell ..).trans (moveEnd_cell ..)
  let t₃ := setBalance t₂ (.node x) (t₂.cell (.node a)).balance
  have hcell₃ : t₃.cell = (setBalance t₁ (.node x) (t₁.cell (.node a)).balance).cell := by
    simp only [t₃, setBalance, Avl.modify, hcell]
  refine ⟨t₃, by simp only [avlReplace, hp, hn, ok_bind, hcp, hcn, hrun]; rfl, _, ⟨⟨⟨?_, ?_, ?_⟩,
    ?_, ?_, ?_, ?_⟩, ?_⟩, hlist⟩
  · rw [Avl.top, hcell₃]
    exact hshape.top
  · exact hshape.sub.congr fun z _ => by rw [hcell₃]
  · exact hshape.balanced
  · rw [hlist]
    exact mem_rename hnd (hs ▸ hx)
  · change t₂.height = _
    rw [moveEnd_height, moveEnd_height, hends.height, hr.height, (plug_rename c a x l r).2]
  · change t₂.head = _
    rw [hlist, ← hhead, moveEnd_head, if_neg (by simp), moveEnd_head]
    simp
  · change t₂.tail = _
    rw [hlist, ← htail, moveEnd_tail, moveEnd_tail]
    simp
  · change t₂.count = _
    rw [moveEnd_count, moveEnd_count, hends.count, hr.count, ← length_toList, ← length_toList,
      hlist, hs]
    simp

end Replace

end Libevl.AvlTree
