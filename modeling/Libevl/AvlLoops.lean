import Libevl.AvlBalance
import Mathlib.Tactic.Ring

/-!
# The rebalancing loops

Both loops climb from a subtree whose height has changed by one, until the
height of a subtree around it is what the parent's balance says.
-/
namespace Libevl.AvlTree
open BinaryTree TreePath

variable {α : Type} [DecidableEq α] {t : Avl α} {c : Path α} {h : ℕ} {s : BinaryTree α}
  {x : Ref α}

/-- The linked tree, apart from the ends and the counters. -/
structure Shape (t : Avl α) (s : BinaryTree α) : Prop where
  top : t.top = root s
  sub : Sub t .anchor 1 s
  balanced : Balanced s

/-- A loop changes neither the ends nor the count. -/
structure SameList (t t' : Avl α) : Prop where
  count : t'.count = t.count
  head : t'.head = t.head
  tail : t'.tail = t.tail

omit [DecidableEq α] in
theorem SameEnds.list {t t' t'' : Avl α} (h : SameEnds t t') (h' : SameList t' t'') :
    SameList t t'' :=
  ⟨h'.count.trans h.count, h'.head.trans h.head, h'.tail.trans h.tail⟩

omit [DecidableEq α] in
/-- A subtree of the expected height completes the tree. -/
theorem shape_plug (hsub : Sub t (up c) (type c) s) (hc : Around t c s.height (root s))
    (hb : c.Balanced s.height) (hbs : Balanced s) : Shape t (c.plug s) := by
  obtain ⟨h₁, h₂⟩ := around_plug.mp ⟨hc, hsub⟩
  exact ⟨h₁, h₂, (balanced_plug c s).mpr ⟨hb, hbs⟩⟩

omit [DecidableEq α] in
/-- The cell at the root of a subtree. -/
theorem Sub.root_cell {u : Ref α} {ty : ℤ} (hs : Sub t u ty s) (hx : root s = some x) :
    (t.cell x).type = ty ∧ (t.cell x).up = some u ∧ (t.cell x).balance = balance s := by
  cases s with
  | nil => simp at hx
  | node a l r =>
    cases hx
    rw [hs.1]
    exact ⟨rfl, rfl, rfl⟩

omit [DecidableEq α] in
/-- The nodes in and around a subtree, seen from its parent. -/
theorem nodup_step {d : Side} {a : α} {other : BinaryTree α} {rest : Path α} {xs : List α} :
    ((Path.step d a other rest).nodes ++ xs).Nodup ↔
      (rest.nodes ++ a :: (xs ++ toList other)).Nodup := by
  refine List.Perm.nodup_iff ?_
  simp only [Path.nodes, List.cons_append, List.append_assoc]
  refine List.Perm.trans (.cons a ?_) List.perm_middle.symm
  refine List.perm_append_comm.trans ?_
  rw [List.append_assoc]

theorem growLoop_spec (fuel : ℕ) (hf : c.length < fuel) (hx : root s = some x)
    (hsub : Sub t (up c) (type c) s) (hc : Around t c h (root s)) (hbs : Balanced s)
    (hb : c.Balanced h) (nd : (c.nodes ++ toList s).Nodup)
    (hh : balance s = 0 ∧ s.height = h ∨ balance s ≠ 0 ∧ s.height = h + 1)
    (ht : t.height = c.height h) :
    ∃ t' s', growLoop fuel t x = .ok t' ∧ Shape t' s' ∧ t'.height = s'.height ∧
      toList s' = toList (c.plug s) ∧ SameList t t' := by
  induction fuel generalizing t c h s x with
  | zero => simp at hf
  | succ fuel ih =>
    obtain ⟨hty, hup, hbal⟩ := hsub.root_cell hx
    rcases hh with ⟨hz, rfl⟩ | ⟨hz, hh⟩
    · refine ⟨t, c.plug s, by simp [growLoop, hbal, hz], shape_plug hsub hc hb hbs, ?_, rfl,
        ⟨rfl, rfl, rfl⟩⟩
      rw [ht, height_plug]
    · cases c with
      | top =>
        refine ⟨{ t with height := t.height + 1 }, s, ?_, ⟨hc, ?_, hbs⟩, ?_, rfl,
          ⟨rfl, rfl, rfl⟩⟩
        · simp [growLoop, hbal, hz, hup, up]
          rfl
        · exact Sub.congr (t := t) (fun _ _ => rfl) hsub
        · simp [ht, Path.height, hh]
      | step d a other rest =>
        obtain ⟨ca, hother, hrest⟩ := hc
        obtain ⟨hbo, hr, hbr⟩ := hb
        rw [nodup_step] at nd
        have hd := d.sign_cases
        obtain ⟨t₁, u, z, hadd, hends, hz₁, hsub₁, hc₁, hbu, hlist, hcase⟩ :=
          avlhBalanceAdd_spec ca hsub hother hrest nd hbs hbo
            (by rcases hd with hd | hd <;> rw [hd] <;> omega)
            (by rw [balance_join, hh]; push_cast; ring)
        rw [height_join] at hcase
        have hnext : balance u = 0 ∧ u.height = max h other.height + 1 ∨
            balance u ≠ 0 ∧ u.height = max h other.height + 1 + 1 := by
          rcases hcase with ⟨h₁, h₂, h₃⟩ | ⟨-, h₂, -⟩ | ⟨h₁, -, h₂, h₃⟩
          · rcases hd with hd | hd <;> rw [hd] at h₁ h₂ <;> omega
          · exact absurd h₂ hz
          · rcases hd with hd | hd <;> rw [hd] at h₁ <;> omega
        have nd₁ : (rest.nodes ++ toList u).Nodup := by
          rw [hlist]
          exact (List.Perm.nodup_iff ((join_perm d s a other).append_left _)).mpr nd
        obtain ⟨t', s', hrun, hshape, hheight, hlist', hsame⟩ := ih (by
          simp only [Path.length] at hf
          omega) hz₁ hsub₁ hc₁ hbu hbr nd₁ hnext (by rw [hends.height, ht, Path.height])
        refine ⟨t', s', ?_, hshape, hheight, ?_, hends.list hsame⟩
        · simp [growLoop, hbal, hz, hty, hup, type, up, hadd, hrun]
        · rw [hlist', toList_plug, hlist, ← toList_plug]
          rfl

theorem shrinkLoop_spec (fuel : ℕ) (hf : c.length < fuel)
    (hx : (t.cell x).type = type c ∧ (t.cell x).up = some (up c))
    (hsub : Sub t (up c) (type c) s) (hc : Around t c h (root s)) (hbs : Balanced s)
    (hb : c.Balanced h) (nd : (c.nodes ++ toList s).Nodup)
    (hh : (t.cell x).balance = 0 ∧ s.height + 1 = h ∨ (t.cell x).balance ≠ 0 ∧ s.height = h)
    (ht : t.height = c.height h) :
    ∃ t' s', shrinkLoop fuel t x = .ok t' ∧ Shape t' s' ∧ t'.height = s'.height ∧
      toList s' = toList (c.plug s) ∧ SameList t t' := by
  induction fuel generalizing t c h s x with
  | zero => simp at hf
  | succ fuel ih =>
    obtain ⟨hty, hup⟩ := hx
    rcases hh with ⟨hz, rfl⟩ | ⟨hz, rfl⟩
    · cases c with
      | top =>
        refine ⟨{ t with height := t.height - 1 }, s, ?_, ⟨hc, ?_, hbs⟩, ?_, rfl,
          ⟨rfl, rfl, rfl⟩⟩
        · simp [shrinkLoop, hz, hup, up]
          rfl
        · exact Sub.congr (t := t) (fun _ _ => rfl) hsub
        · simp [ht, Path.height]
      | step d a other rest =>
        obtain ⟨ca, hother, hrest⟩ := hc
        obtain ⟨hbo, hr, hbr⟩ := hb
        rw [nodup_step] at nd
        have nd' : (rest.nodes ++ a :: (toList other ++ toList s)).Nodup :=
          (List.Perm.nodup_iff
            (List.Perm.append_left _ (.cons a List.perm_append_comm))).mp nd
        have hd := d.sign_cases
        rw [← holder_opp] at ca
        obtain ⟨t₁, u, z, hadd, hends, hz₁, hsub₁, hc₁, hbu, hlist, hcase⟩ :=
          avlhBalanceAdd_spec (e := d.opp) ca (by rwa [Side.sign_opp])
            (by rwa [Side.sign_opp, neg_neg]) hrest nd' hbo hbs
            (by rcases hd with hd | hd <;> rw [hd] <;> omega)
            (by rw [balance_join, Side.sign_opp]; push_cast; ring)
        rw [join_opp] at hlist
        rw [join_opp, height_join, Side.sign_opp] at hcase
        rw [Side.sign_opp] at hadd
        have hnext : balance u = 0 ∧ u.height + 1 = max (s.height + 1) other.height + 1 ∨
            balance u ≠ 0 ∧ u.height = max (s.height + 1) other.height + 1 := by
          rcases hcase with ⟨h₁, h₂, h₃⟩ | ⟨h₁, -, h₂, h₃⟩ | ⟨h₁, -, h₂, h₃⟩
          · rcases hd with hd | hd <;> rw [hd] at h₁ h₂ <;> omega
          · rcases hd with hd | hd <;> rw [hd] at h₁ <;> omega
          · rcases hd with hd | hd <;> rw [hd] at h₁ <;> omega
        obtain ⟨hty₁, hup₁, hbal₁⟩ := hsub₁.root_cell hz₁
        have nd₁ : (rest.nodes ++ toList u).Nodup := by
          rw [hlist]
          exact (List.Perm.nodup_iff ((join_perm d s a other).append_left _)).mpr nd
        obtain ⟨t', s', hrun, hshape, hheight, hlist', hsame⟩ := ih (by
          simp only [Path.length] at hf
          omega) ⟨hty₁, hup₁⟩ hsub₁ hc₁ hbu hbr nd₁ (by rwa [hbal₁])
          (by rw [hends.height, ht, Path.height])
        refine ⟨t', s', ?_, hshape, hheight, ?_, hends.list hsame⟩
        · simp [shrinkLoop, hz, hty, hup, type, up, hadd, hrun]
        · rw [hlist', toList_plug, hlist, ← toList_plug]
          rfl
    · refine ⟨t, c.plug s, by simp [shrinkLoop, hz], shape_plug hsub hc hb hbs, ?_, rfl,
        ⟨rfl, rfl, rfl⟩⟩
      rw [ht, height_plug]

end Libevl.AvlTree
