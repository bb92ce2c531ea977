import Libevl.AvlShape

/-!
# Rotations restore the balance

A holder whose balance is off by one, or whose subtrees differ by two, is turned
into a balanced subtree with the same in-order walk.
-/
namespace Libevl.AvlTree
open BinaryTree TreePath

variable {α : Type} [DecidableEq α] {t : Avl α} {c : Path α} {hh : ℕ} {e : Side}
  {a n m : α} {near far s r x y : BinaryTree α}

omit [DecidableEq α] in
/-- The nodes around and in a subtree, after one step down. -/
theorem nodup_unfold (d : Side) {xs ys : List α} :
    (xs ++ a :: (toList (join d s n r) ++ ys)).Nodup ↔
      (xs ++ a :: n :: (toList s ++ (toList r ++ ys))).Nodup := by
  refine List.Perm.nodup_iff (List.Perm.append_left _ (List.Perm.cons a ?_))
  refine ((join_perm d s n r).append_right ys).trans ?_
  simp

/-- A rotation of `n` above `a` under the cell `u`. The subtree `r` between the two changes its
parent, the cells of other nodes stay. -/
theorem avlhRotate_tree {u : Ref α} {ty tn tr b bn : ℤ} {pA pB q : Option (Ref α)}
    (hty : narrow2 ty = ty)
    (ca : t.cell (.node a) = holder e ty b (some (.node n)) (some u) pA)
    (cn : t.cell (.node n) = holder e tn bn pB q (root r))
    (hr : Sub t (.node n) tr r) (nd : (a :: n :: toList r).Nodup)
    (hu : ∀ x ∈ a :: n :: toList r, u ≠ .node x) :
    ∃ t', avlhRotate t (.node a) (-e.sign) = .ok (t', .node n) ∧ SameEnds t t' ∧
      t'.cell (.node n) = holder e ty bn pB (some u) (some (.node a)) ∧
      t'.cell (.node a) = holder e (-e.sign) b (root r) (some (.node n)) pA ∧
      t'.cell u = (t.cell u).setLink ty (some (.node n)) ∧
      Sub t' (.node a) e.sign r ∧
      ∀ z, z ≠ u → (∀ x ∈ a :: n :: toList r, z ≠ .node x) → t'.cell z = t.cell z := by
  simp only [List.nodup_cons, List.mem_cons, not_or] at nd
  obtain ⟨⟨han, har⟩, hnr, ndr⟩ := nd
  simp only [List.mem_cons, forall_eq_or_imp] at hu ⊢
  obtain ⟨hua, hun, hur⟩ := hu
  have hroot {z : Ref α} (hz : root r = some z) : ∃ x ∈ toList r, z = .node x := by
    cases r with
    | nil => simp at hz
    | node x _ _ =>
      cases hz
      exact ⟨x, by simp, rfl⟩
  have hane {x : α} (hx : x ∈ toList r) : Ref.node x ≠ .node a := by
    rintro ⟨⟩
    exact har hx
  have hnne {x : α} (hx : x ∈ toList r) : Ref.node x ≠ .node n := by
    rintro ⟨⟩
    exact hnr hx
  obtain ⟨t', hrot, hends, cn', ca', cu', cs', co'⟩ := avlhRotate_cells hty ca cn
    (fun h => han (by cases h; rfl)) hua hun (fun z hz => by
      obtain ⟨x, hx, rfl⟩ := hroot hz
      exact ⟨hane hx, hnne hx, (hur x hx).symm⟩)
  refine ⟨t', hrot, hends, cn', ca', cu', hr.rehang ndr cs' fun x hx hne => ?_,
    fun z hz ⟨hza, hzn, hzr⟩ => ?_⟩
  · exact co' _ (hane hx) (hnne hx) (hur x hx).symm hne
  · refine co' z hza hzn hz fun h => ?_
    obtain ⟨x, hx, rfl⟩ := hroot h
    exact hzr x hx rfl

/-- A heavy child that leans to its own side, or to none, is rotated to the top. -/
theorem rebalance_single
    (ca : t.cell (.node a) = holder e (type c) e.sign (some (.node n)) (some (up c)) (root far))
    (hn : Sub t (.node a) e.sign (join e s n r)) (hf : Sub t (.node a) (-e.sign) far)
    (hc : Around t c hh (some (.node a)))
    (nd : (c.nodes ++ a :: (toList (join e s n r) ++ toList far)).Nodup)
    (hb : balance (join e s n r) ≠ -e.sign) (hbn : Balanced (join e s n r))
    (hd : (join e s n r).height = far.height + 2) :
    ∃ t', avlhRebalance t (.node a) e.sign = .ok (t', .node n) ∧ SameEnds t t' ∧
      Sub t' (up c) (type c) (join e s n (join e r a far)) ∧
      Around t' c hh (some (.node n)) := by
  obtain ⟨cn, hs, hr⟩ := sub_join.mp hn
  rw [nodup_unfold] at nd
  simp only [List.nodup_append, List.nodup_cons, List.mem_append, List.mem_cons] at nd
  have hup : ∀ x ∈ a :: n :: toList r, up c ≠ .node x := fun x hx => up_ne (by grind)
  obtain ⟨t₁, hrot, hends, cn₁, ca₁, cu₁, hr₁, ho₁⟩ := avlhRotate_tree (narrow2_type c) ca cn hr
    (by grind) hup
  have hc₁ : Around t₁ c hh (some (.node n)) := by
    refine hc.relink (by grind) cu₁ fun z hz hne => ho₁ z hne fun x hx => ?_
    rcases hz with rfl | ⟨w, hw, rfl⟩ <;> grind
  have han : Ref.node a ≠ .node n := by grind
  -- the two balances that the rotation leaves behind
  rw [balanced_join] at hbn
  rw [balance_join] at hb cn₁
  rw [height_join] at hd
  have hba : narrow2 (e.sign - e.sign * ((s.height : ℤ) - r.height)) =
      balance (join e r a far) := by
    rw [balance_join, narrow2_eq] <;> cases e <;> simp only [Side.sign] at hb hbn ⊢ <;> omega
  have hbn' : narrow2 (e.sign * ((s.height : ℤ) - r.height) - e.sign) =
      balance (join e s n (join e r a far)) := by
    rw [balance_join, height_join, narrow2_eq] <;> cases e <;>
      simp only [Side.sign] at hb hbn ⊢ <;> omega
  let t₂ := setBalance t₁ (.node a) (e.sign - e.sign * ((s.height : ℤ) - r.height))
  let t₃ := setBalance t₂ (.node n) (e.sign * ((s.height : ℤ) - r.height) - e.sign)
  have hother {z : Ref α} (ha : z ≠ .node a) (hn : z ≠ .node n) : t₃.cell z = t₁.cell z := by
    rw [setBalance_of_ne _ _ _ hn, setBalance_of_ne _ _ _ ha]
  have hkeep {x : α} (hx : x ∈ toList s ∨ x ∈ toList far) :
      t₃.cell (.node x) = t.cell (.node x) := by
    rw [hother (by grind) (by grind)]
    exact ho₁ _ (up_ne (by grind)).symm (by grind)
  refine ⟨t₃, ?_, hends.trans ⟨rfl, rfl, rfl, rfl⟩, ?_, hc₁.congr (fun x hx => ?_) ?_⟩
  · simp [avlhRebalance, avlOpposite, ca, cn, hb, hrot, ca₁, cn₁, balance_join,
      setBalance_of_ne _ _ _ han.symm, t₃, t₂]
  · refine sub_join.mpr ⟨?_, hs.congr fun x hx => hkeep (.inl hx), sub_join.mpr ⟨?_,
      hr₁.congr fun x hx => hother (by grind) (by grind), hf.congr fun x hx => hkeep (.inr hx)⟩⟩
    · rw [setBalance_self, setBalance_of_ne _ _ _ han.symm, cn₁, holder_setBalance, hbn',
        root_join]
    · rw [setBalance_of_ne _ _ _ han, setBalance_self, ca₁, holder_setBalance, hba]
  · exact hother (by grind) (by grind)
  · exact hother (by simp) (by simp)

/-- `m` gives its balance to the node on its lighter side. -/
theorem recomputeBalances_cells {ty b : ℤ} {u : Ref α} {ra rn rm : Ref α}
    (cm : t.cell rm = holder e ty b (some rn) (some u) (some ra))
    (hb : b = e.sign ∨ b = -e.sign ∨ b = 0) (hna : rn ≠ ra) (hnm : rn ≠ rm) (ham : ra ≠ rm) :
    ∃ t', recomputeBalances t rm = .ok t' ∧ SameEnds t t' ∧
      t'.cell rn = (t.cell rn).setBalance (if b = -e.sign then e.sign else 0) ∧
      t'.cell ra = (t.cell ra).setBalance (if b = e.sign then -e.sign else 0) ∧
      t'.cell rm = (t.cell rm).setBalance 0 ∧
      ∀ z, z ≠ rn → z ≠ ra → z ≠ rm → t'.cell z = t.cell z := by
  have hsign : e.sign ≠ 0 ∧ e.sign ≠ -e.sign := by cases e <;> decide
  have hfar := holder_far e ty b (some rn) (some u) (some ra)
  have hnear := holder_near e ty b (some rn) (some u) (some ra)
  have hone : (orElse b 1 = e.sign ∧ b ≠ -e.sign) ∨ (orElse b 1 = -e.sign ∧ b ≠ e.sign) := by
    rcases hb with rfl | rfl | rfl <;> cases e <;> decide
  rcases hone with ⟨hdir, hne⟩ | ⟨hdir, hne⟩
  · refine ⟨setBalance (setBalance (setBalance t rn 0) ra (-b)) rm 0, ?_, ⟨rfl, rfl, rfl, rfl⟩,
      ?_, ?_, ?_, fun z h₁ h₂ h₃ => ?_⟩
    · simp [recomputeBalances, avlOpposite, cm, hdir, setBalance_of_ne, hnm.symm]
    · rw [setBalance_of_ne _ _ _ hnm, setBalance_of_ne _ _ _ hna, setBalance_self, if_neg hne]
    · rw [setBalance_of_ne _ _ _ ham, setBalance_self, setBalance_of_ne _ _ _ hna.symm]
      rcases hb with rfl | rfl | rfl
      · rw [if_pos rfl]
      · exact absurd rfl hne
      · rw [if_neg hsign.1.symm, neg_zero]
    · rw [setBalance_self, setBalance_of_ne _ _ _ ham.symm, setBalance_of_ne _ _ _ hnm.symm]
    · rw [setBalance_of_ne _ _ _ h₃, setBalance_of_ne _ _ _ h₂, setBalance_of_ne _ _ _ h₁]
  · refine ⟨setBalance (setBalance (setBalance t ra 0) rn (-b)) rm 0, ?_, ⟨rfl, rfl, rfl, rfl⟩,
      ?_, ?_, ?_, fun z h₁ h₂ h₃ => ?_⟩
    · simp [recomputeBalances, avlOpposite, cm, hdir, setBalance_of_ne, ham.symm]
    · rw [setBalance_of_ne _ _ _ hnm, setBalance_self, setBalance_of_ne _ _ _ hna]
      rcases hb with rfl | rfl | rfl
      · exact absurd rfl hne
      · rw [if_pos rfl, neg_neg]
      · rw [if_neg (by cases e <;> decide), neg_zero]
    · rw [setBalance_of_ne _ _ _ ham, setBalance_of_ne _ _ _ hna.symm, setBalance_self,
        if_neg hne]
    · rw [setBalance_self, setBalance_of_ne _ _ _ hnm.symm, setBalance_of_ne _ _ _ ham.symm]
    · rw [setBalance_of_ne _ _ _ h₃, setBalance_of_ne _ _ _ h₁, setBalance_of_ne _ _ _ h₂]

/-- A double rotation of `m` above `n` and `a`, which share its subtrees `x` and `y`. -/
theorem avlhDblRotate_tree {u : Ref α} {ty b bn bm : ℤ} {pA pS : Option (Ref α)}
    (hty : narrow2 ty = ty)
    (ca : t.cell (.node a) = holder e ty b (some (.node n)) (some u) pA)
    (cn : t.cell (.node n) = holder e e.sign bn pS (some (.node a)) (some (.node m)))
    (cm : t.cell (.node m) = holder e (-e.sign) bm (root x) (some (.node n)) (root y))
    (hx : Sub t (.node m) e.sign x) (hy : Sub t (.node m) (-e.sign) y)
    (nd : (a :: n :: m :: (toList x ++ toList y)).Nodup)
    (hu : ∀ z ∈ a :: n :: m :: (toList x ++ toList y), u ≠ .node z) :
    ∃ t', avlhDblRotate t (.node a) (-e.sign) = .ok (t', .node m) ∧ SameEnds t t' ∧
      t'.cell (.node m) = holder e ty bm (some (.node n)) (some u) (some (.node a)) ∧
      t'.cell (.node n) = holder e e.sign bn pS (some (.node m)) (root x) ∧
      t'.cell (.node a) = holder e (-e.sign) b (root y) (some (.node m)) pA ∧
      t'.cell u = (t.cell u).setLink ty (some (.node m)) ∧
      Sub t' (.node n) (-e.sign) x ∧ Sub t' (.node a) e.sign y ∧
      ∀ z, z ≠ u → (∀ w ∈ a :: n :: m :: (toList x ++ toList y), z ≠ .node w) →
        t'.cell z = t.cell z := by
  simp only [List.nodup_cons, List.nodup_append, List.mem_cons, List.mem_append, not_or] at nd hu
  obtain ⟨⟨han, ham, hax, hay⟩, ⟨hnm, hnx, hny⟩, ⟨hmx, hmy⟩, ndx, ndy, hxy⟩ := nd
  -- `m` goes above `n`
  rw [← holder_opp] at cn cm
  obtain ⟨t₁, hrot₁, hends₁, cm₁, cn₁, ca₁, hx₁, ho₁⟩ := avlhRotate_tree (e := e.opp)
    (narrow2_sign e) cn cm hx (by simp [hnm, hnx, hmx, ndx]) (u := .node a) (by grind)
  rw [ca, holder_setNear] at ca₁
  rw [holder_opp] at cm₁ cn₁
  simp only [Side.sign_opp, neg_neg] at hrot₁ cn₁ hx₁
  have hy₁ : Sub t₁ (.node m) (-e.sign) y := hy.congr fun z hz => ho₁ _ (by grind) (by grind)
  have hu₁ : t₁.cell u = t.cell u := ho₁ _ (hu a (.inl rfl)) (by grind)
  -- then above `a`
  obtain ⟨t₂, hrot₂, hends₂, cm₂, ca₂, cu₂, hy₂, ho₂⟩ := avlhRotate_tree hty ca₁ cm₁ hy₁
    (by simp [ham, hay, hmy, ndy]) (by grind)
  have hn : t₂.cell (.node n) = t₁.cell (.node n) := ho₂ _ (hu n (by simp)).symm (by grind)
  refine ⟨t₂, ?_, hends₁.trans hends₂, cm₂, hn.trans cn₁, ca₂, by rw [cu₂, hu₁],
    hx₁.congr fun z hz => ho₂ _ (hu z (by simp [hz])).symm (by grind), hy₂, fun z hz hw => ?_⟩
  · simp [avlhDblRotate, avlOpposite, ca, hrot₁, hrot₂]
  · simp only [List.mem_cons, List.mem_append] at hw
    rw [ho₂ z hz (by grind), ho₁ z (hw a (.inl rfl)) (by grind)]

omit [DecidableEq α] in
/-- The balances that a double rotation has to leave behind. -/
theorem double_balances
    (hb : balance (join e s n (join e x m y)) = -e.sign)
    (hbn : Balanced (join e s n (join e x m y)))
    (hd : (join e s n (join e x m y)).height = far.height + 2) :
    balance (join e (join e s n x) m (join e y a far)) = 0 ∧
      balance (join e s n x) = (if balance (join e x m y) = -e.sign then e.sign else 0) ∧
      balance (join e y a far) = (if balance (join e x m y) = e.sign then -e.sign else 0) := by
  rw [balanced_join, balanced_join] at hbn
  simp only [balance_join, height_join] at hb hbn hd ⊢
  cases e <;> simp only [Side.sign] at hb hbn ⊢ <;> split_ifs <;> omega

/-- A heavy child that leans the other way: its own child goes to the top. -/
theorem rebalance_double
    (ca : t.cell (.node a) = holder e (type c) e.sign (some (.node n)) (some (up c)) (root far))
    (hn : Sub t (.node a) e.sign (join e s n (join e x m y))) (hf : Sub t (.node a) (-e.sign) far)
    (hc : Around t c hh (some (.node a)))
    (nd : (c.nodes ++ a :: (toList (join e s n (join e x m y)) ++ toList far)).Nodup)
    (hb : balance (join e s n (join e x m y)) = -e.sign)
    (hbn : Balanced (join e s n (join e x m y)))
    (hd : (join e s n (join e x m y)).height = far.height + 2) :
    ∃ t', avlhRebalance t (.node a) e.sign = .ok (t', .node m) ∧ SameEnds t t' ∧
      Sub t' (up c) (type c) (join e (join e s n x) m (join e y a far)) ∧
      Around t' c hh (some (.node m)) := by
  obtain ⟨cn, hs, hm⟩ := sub_join.mp hn
  obtain ⟨cm, hx, hy⟩ := sub_join.mp hm
  rw [root_join] at cn
  rw [nodup_unfold] at nd
  have ndm : (c.nodes ++ a :: n :: m ::
      (toList s ++ (toList x ++ (toList y ++ toList far)))).Nodup := by
    refine (List.Perm.nodup_iff (List.Perm.append_left _ (.cons a (.cons n ?_)))).mp nd
    refine (((join_perm e x m y).append_right _).append_left _).trans ?_
    simp
  simp only [List.nodup_append, List.nodup_cons, List.mem_append, List.mem_cons] at ndm
  have hout : ∀ z, (z = a ∨ z = n ∨ z = m ∨ z ∈ toList s ∨ z ∈ toList x ∨ z ∈ toList y ∨
      z ∈ toList far) → z ∉ c.nodes := by grind
  have hanm : a ≠ n ∧ a ≠ m ∧ n ≠ m := by grind
  have hne : ∀ z, (z ∈ c.nodes ∨ z ∈ toList s ∨ z ∈ toList x ∨ z ∈ toList y ∨ z ∈ toList far) →
      z ≠ a ∧ z ≠ n ∧ z ≠ m := by grind
  have hxy : ∀ z, (z ∈ c.nodes ∨ z ∈ toList s ∨ z ∈ toList far) →
      z ∉ toList x ∧ z ∉ toList y := by grind
  have ndx : (a :: n :: m :: (toList x ++ toList y)).Nodup := by
    simp only [List.nodup_cons, List.nodup_append, List.mem_cons, List.mem_append]
    grind
  have ndc : c.nodes.Nodup := ndm.1
  clear ndm nd
  obtain ⟨han, ham, hnm⟩ := hanm
  obtain ⟨t₂, hdbl, hends₂, cm₂, cn₂, ca₂, cu₂, hx₂, hy₂, ho₂⟩ := avlhDblRotate_tree
    (narrow2_type c) ca cn cm hx hy ndx fun z hz => up_ne (hout z (by
      simp only [List.mem_cons, List.mem_append] at hz
      tauto))
  have haway {z : α} (hz : z ∈ c.nodes ∨ z ∈ toList s ∨ z ∈ toList far) :
      ∀ w ∈ a :: n :: m :: (toList x ++ toList y), Ref.node z ≠ .node w := by
    rintro w hw ⟨⟩
    have h₁ := hne z (by tauto)
    have h₂ := hxy z hz
    simp only [List.mem_cons, List.mem_append] at hw
    tauto
  have hc₂ : Around t₂ c hh (some (.node m)) := by
    refine hc.relink ndc cu₂ fun z hz hne' => ho₂ z hne' ?_
    rcases hz with rfl | ⟨w, hw, rfl⟩
    · simp
    · exact haway (.inl hw)
  have hkeep {z : α} (hz : z ∈ toList s ∨ z ∈ toList far) :
      t₂.cell (.node z) = t.cell (.node z) :=
    ho₂ _ (up_ne (hout z (by tauto))).symm (haway (.inr hz))
  -- the three balances
  obtain ⟨hbm, hbn', hba⟩ := double_balances hb hbn hd
  rw [balanced_join] at hbn
  have hbr := hbn.2.2.range
  obtain ⟨t₃, hrec, hends₃, cn₃, ca₃, cm₃, ho₃⟩ := recomputeBalances_cells cm₂
    (by rcases e.sign_cases with h | h <;> omega) (by simpa using han.symm)
    (by simpa using hnm) (by simpa using ham)
  have hother {z : α} (hz : z ∈ c.nodes ∨ z ∈ toList s ∨ z ∈ toList x ∨ z ∈ toList y ∨
      z ∈ toList far) : t₃.cell (.node z) = t₂.cell (.node z) := by
    obtain ⟨h₁, h₂, h₃⟩ := hne z hz
    exact ho₃ _ (by simpa using h₂) (by simpa using h₁) (by simpa using h₃)
  refine ⟨t₃, ?_, hends₂.trans hends₃, ?_, ?_⟩
  · simp [avlhRebalance, avlOpposite, ca, cn, hb, hdbl, hrec]
  · refine sub_join.mpr ⟨?_, sub_join.mpr ⟨?_, ?_, ?_⟩, sub_join.mpr ⟨?_, ?_, ?_⟩⟩
    · rw [cm₃, cm₂, holder_setBalance, root_join, root_join, hbm]
      rfl
    · rw [cn₃, cn₂, holder_setBalance, hbn']
      congr 1
      split_ifs
      · exact narrow2_sign e
      · rfl
    · exact hs.congr fun z hz => (hother (.inr (.inl hz))).trans (hkeep (.inl hz))
    · exact hx₂.congr fun z hz => hother (.inr (.inr (.inl hz)))
    · rw [ca₃, ca₂, holder_setBalance, hba]
      congr 1
      split_ifs
      · exact narrow2_neg_sign e
      · rfl
    · exact hy₂.congr fun z hz => hother (.inr (.inr (.inr (.inl hz))))
    · exact hf.congr fun z hz =>
        (hother (.inr (.inr (.inr (.inr hz))))).trans (hkeep (.inr hz))
  · exact hc₂.congr (fun z hz => hother (.inl hz)) (ho₃ _ (by simp) (by simp) (by simp))

omit [DecidableEq α] in
/-- What a single rotation makes of the heights. -/
theorem single_heights (hb : balance (join e s n r) ≠ -e.sign) (hbn : Balanced (join e s n r))
    (hbf : Balanced far) (hd : (join e s n r).height = far.height + 2) :
    Balanced (join e s n (join e r a far)) ∧
      (balance (join e s n r) = 0 ∧ balance (join e s n (join e r a far)) ≠ 0 ∧
          (join e s n (join e r a far)).height = (join e (join e s n r) a far).height ∨
        balance (join e s n r) ≠ 0 ∧ balance (join e s n (join e r a far)) = 0 ∧
          (join e s n (join e r a far)).height + 1 = (join e (join e s n r) a far).height) := by
  rw [balanced_join] at hbn
  rw [balanced_join, balanced_join]
  simp only [balance_join, height_join] at hb hbn hd ⊢
  obtain ⟨hr, h₁, h₂⟩ := hbn
  refine ⟨⟨?_, h₁, ?_, h₂, hbf⟩, ?_⟩ <;> rcases e.sign_cases with he | he <;>
    rw [he] at hb hr ⊢ <;> omega

omit [DecidableEq α] in
/-- What a double rotation makes of the heights. -/
theorem double_heights (hb : balance (join e s n (join e x m y)) = -e.sign)
    (hbn : Balanced (join e s n (join e x m y))) (hbf : Balanced far)
    (hd : (join e s n (join e x m y)).height = far.height + 2) :
    Balanced (join e (join e s n x) m (join e y a far)) ∧
      (join e (join e s n x) m (join e y a far)).height + 1 =
        (join e (join e s n (join e x m y)) a far).height := by
  rw [balanced_join, balanced_join] at hbn
  rw [balanced_join, balanced_join, balanced_join]
  simp only [balance_join, height_join] at hb hbn hd ⊢
  obtain ⟨hr, h₁, hr', h₂, h₃⟩ := hbn
  refine ⟨⟨?_, ⟨?_, h₁, h₂⟩, ?_, h₃, hbf⟩, ?_⟩ <;> rcases e.sign_cases with he | he <;>
    simp only [he] at hb hr hr' ⊢ <;> omega

omit [DecidableEq α] in
theorem toList_rotate : toList (join e s n (join e r a far)) =
    toList (join e (join e s n r) a far) := by
  cases e <;> simp [join]

/-- `avlh_balance_add` on a holder whose balance is off by `e.sign`. The three outcomes say how
the height changes, which the loops go by. -/
theorem avlhBalanceAdd_spec {b : ℤ}
    (ca : t.cell (.node a) = holder e (type c) b (root near) (some (up c)) (root far))
    (hn : Sub t (.node a) e.sign near) (hf : Sub t (.node a) (-e.sign) far)
    (hc : Around t c hh (some (.node a)))
    (nd : (c.nodes ++ a :: (toList near ++ toList far)).Nodup)
    (hbn : Balanced near) (hbf : Balanced far) (hrange : -1 ≤ b ∧ b ≤ 1)
    (hb : b + e.sign = balance (join e near a far)) :
    ∃ t' u x, avlhBalanceAdd t (.node a) e.sign = .ok (t', .node x) ∧ SameEnds t t' ∧
      root u = some (.node x) ∧ Sub t' (up c) (type c) u ∧ Around t' c hh (root u) ∧
      Balanced u ∧ toList u = toList (join e near a far) ∧
      (b ≠ e.sign ∧ balance u = b + e.sign ∧ u.height = (join e near a far).height ∨
        b = e.sign ∧ balance near = 0 ∧ balance u ≠ 0 ∧
          u.height = (join e near a far).height ∨
        b = e.sign ∧ balance near ≠ 0 ∧ balance u = 0 ∧
          u.height + 1 = (join e near a far).height) := by
  have he := e.sign_cases
  by_cases hbe : b = e.sign
  · subst hbe
    have hd : near.height = far.height + 2 := by
      rw [balance_join] at hb
      rcases he with he | he <;> rw [he] at hb <;> omega
    cases near with
    | nil => simp at hd
    | node n l r =>
      obtain ⟨s, q, hj⟩ := exists_join e n l r
      rw [hj] at ca hn nd hbn hd hb ⊢
      rw [root_join] at ca
      by_cases hlean : balance (join e s n q) = -e.sign
      · cases q with
        | nil =>
          rw [balance_join] at hlean
          simp only [height, Nat.cast_zero, sub_zero] at hlean
          rcases he with he | he
          · rw [he] at hlean
            omega
          · rw [he] at hlean
            omega
        | node m l' r' =>
          obtain ⟨x, y, hj'⟩ := exists_join e m l' r'
          rw [hj'] at hn nd hbn hd hb hlean ⊢
          obtain ⟨t', hr, hends, hsub, haround⟩ := rebalance_double ca hn hf hc nd hlean hbn hd
          obtain ⟨hbal, -⟩ := double_balances (a := a) hlean hbn hd
          obtain ⟨hbu, hh⟩ := double_heights (a := a) hlean hbn hbf hd
          refine ⟨t', _, m, ?_, hends, root_join .., hsub, ?_, hbu, ?_, .inr (.inr ⟨rfl, ?_, hbal, hh⟩)⟩
          · simp [avlhBalanceAdd, ca, hr]
          · rwa [root_join]
          · cases e <;> simp [join]
          · rw [hlean]
            rcases he with he | he <;> simp [he]
      · obtain ⟨t', hr, hends, hsub, haround⟩ := rebalance_single ca hn hf hc nd hlean hbn hd
        obtain ⟨hbu, hh⟩ := single_heights (a := a) hlean hbn hbf hd
        refine ⟨t', _, n, ?_, hends, root_join .., hsub, ?_, hbu, toList_rotate, ?_⟩
        · simp [avlhBalanceAdd, ca, hr]
        · rwa [root_join]
        · exact .inr (hh.imp (fun h => ⟨rfl, h⟩) fun h => ⟨rfl, h⟩)
  · have hnarrow : narrow2 (b + e.sign) = b + e.sign := narrow2_eq (by omega)
    simp only [List.nodup_append, List.nodup_cons, List.mem_append, List.mem_cons] at nd
    have hother {z : Ref α} (hz : z ≠ .node a) :
        (setBalance t (.node a) (b + e.sign)).cell z = t.cell z :=
      setBalance_of_ne _ _ _ hz
    have hne {z : α} (hz : z ∈ c.nodes ∨ z ∈ toList near ∨ z ∈ toList far) :
        Ref.node z ≠ .node a := by
      rintro ⟨⟩
      grind
    refine ⟨setBalance t (.node a) (b + e.sign), join e near a far, a, ?_, ⟨rfl, rfl, rfl, rfl⟩,
      root_join .., sub_join.mpr ⟨?_, ?_, ?_⟩, ?_, ?_, rfl, .inl ⟨hbe, hb.symm, rfl⟩⟩
    · simp [avlhBalanceAdd, ca, hbe]
    · rw [setBalance_self, ca, holder_setBalance, hnarrow, hb]
    · exact hn.congr fun z hz => hother (hne (.inr (.inl hz)))
    · exact hf.congr fun z hz => hother (hne (.inr (.inr hz)))
    · rw [root_join]
      exact hc.congr (fun z hz => hother (hne (.inl hz))) (hother (by simp))
    · rw [balanced_join, ← balance_join e near a far, ← hb]
      exact ⟨by omega, hbn, hbf⟩

end Libevl.AvlTree
