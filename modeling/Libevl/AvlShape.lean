import Libevl.AvlTree
import Libevl.TreePath

/-!
# Linked holders that make up a tree

A subtree fixes the contents of the cells of its nodes, a path those of the
nodes on it and beside it. The balance of a parent refers to the height which
the subtree under it is supposed to have, so that it may be one step behind.
-/
namespace Libevl.AvlTree
open BinaryTree TreePath

variable {α : Type}

/-- The pointer to a subtree. -/
def root : BinaryTree α → Option (Ref α)
  | nil => none
  | node a _ _ => some (.node a)

@[simp] theorem root_nil : root (nil : BinaryTree α) = none := rfl
@[simp] theorem root_node (a : α) (l r : BinaryTree α) : root (node a l r) = some (.node a) := rfl
@[simp] theorem root_join (d : Side) (a : α) (s t : BinaryTree α) :
    root (join d s a t) = some (.node a) := by
  cases d <;> rfl

theorem root_eq_none {t : BinaryTree α} : root t = none ↔ t = nil := by
  cases t <;> simp

/-- A holder by its links on the side `d`, up, and on the other side. -/
def holder (d : Side) (type balance : ℤ) (near up far : Option (Ref α)) : Avlh α :=
  match d with
  | .left => ⟨type, balance, near, up, far⟩
  | .right => ⟨type, balance, far, up, near⟩

section Holder

variable (d : Side) (ty b : ℤ) (near up far p : Option (Ref α))

@[simp] theorem holder_type : (holder d ty b near up far).type = ty := by cases d <;> rfl
@[simp] theorem holder_balance : (holder d ty b near up far).balance = b := by cases d <;> rfl
@[simp] theorem holder_up : (holder d ty b near up far).up = up := by cases d <;> rfl
@[simp] theorem holder_near : (holder d ty b near up far).link d.sign = near := by cases d <;> rfl
@[simp] theorem holder_far : (holder d ty b near up far).link (-d.sign) = far := by
  cases d <;> rfl
@[simp] theorem holder_setNear :
    (holder d ty b near up far).setLink d.sign p = holder d ty b p up far := by
  cases d <;> rfl
@[simp] theorem holder_setFar :
    (holder d ty b near up far).setLink (-d.sign) p = holder d ty b near up p := by
  cases d <;> rfl
@[simp] theorem holder_setUp :
    (holder d ty b near up far).setLink 0 p = holder d ty b near p far := by
  cases d <;> rfl
@[simp] theorem holder_setType (ty' : ℤ) :
    (holder d ty b near up far).setType ty' = holder d (narrow2 ty') b near up far := by
  cases d <;> rfl
@[simp] theorem holder_setBalance (b' : ℤ) :
    (holder d ty b near up far).setBalance b' = holder d ty (narrow2 b') near up far := by
  cases d <;> rfl

theorem holder_opp : holder d.opp ty b near up far = holder d ty b far up near := by
  cases d <;> rfl

end Holder

@[simp] theorem narrow2_sign (d : Side) : narrow2 d.sign = d.sign := by cases d <;> rfl
@[simp] theorem narrow2_neg_sign (d : Side) : narrow2 (-d.sign) = -d.sign := by cases d <;> rfl

theorem narrow2_eq {x : ℤ} (h : -1 ≤ x ∧ x ≤ 1) : narrow2 x = x := by
  obtain rfl | rfl | rfl : x = -1 ∨ x = 0 ∨ x = 1 := by omega
  all_goals rfl

/-- The cells of a subtree which hangs under `up`. -/
def Sub (t : Avl α) (up : Ref α) (ty : ℤ) : BinaryTree α → Prop
  | nil => True
  | node a l r =>
    t.cell (.node a) = ⟨ty, balance (node a l r), root l, some up, root r⟩ ∧
      Sub t (.node a) (-1) l ∧ Sub t (.node a) 1 r

/-- The cell above a subtree. -/
def up : Path α → Ref α
  | .top => .anchor
  | .step _ a _ _ => .node a

/-- The type of a subtree. -/
def type : Path α → ℤ
  | .top => 1
  | .step d _ _ _ => d.sign

/-- The cells on the way to a subtree of height `h` at `p`, and beside it. -/
def Around (t : Avl α) : Path α → ℕ → Option (Ref α) → Prop
  | .top, _, p => (t.cell .anchor).right = p
  | .step d a other rest, h, p =>
    t.cell (.node a) =
        holder d (type rest) (d.sign * ((h : ℤ) - other.height)) p (some (up rest)) (root other) ∧
      Sub t (.node a) (-d.sign) other ∧ Around t rest (max h other.height + 1) (some (.node a))

theorem sub_join {t : Avl α} {u : Ref α} {ty : ℤ} {d : Side} {s r : BinaryTree α} {a : α} :
    Sub t u ty (join d s a r) ↔
      t.cell (.node a) = holder d ty (balance (join d s a r)) (root s) (some u) (root r) ∧
        Sub t (.node a) d.sign s ∧ Sub t (.node a) (-d.sign) r := by
  cases d
  · rfl
  · exact and_congr_right fun _ => and_comm

theorem Sub.congr {t t' : Avl α} {u : Ref α} {ty : ℤ} {s : BinaryTree α}
    (hc : ∀ a ∈ toList s, t'.cell (.node a) = t.cell (.node a)) (h : Sub t u ty s) :
    Sub t' u ty s := by
  induction s generalizing u ty with
  | nil => trivial
  | node a l r hl hr =>
    obtain ⟨h₁, h₂, h₃⟩ := h
    refine ⟨(hc a (by simp)).trans h₁, hl (fun b hb => hc b ?_) h₂, hr (fun b hb => hc b ?_) h₃⟩
    · simp [hb]
    · simp [hb]

theorem Around.congr {t t' : Avl α} {c : Path α} {h : ℕ} {p : Option (Ref α)}
    (hc : ∀ a ∈ c.nodes, t'.cell (.node a) = t.cell (.node a))
    (ha : t'.cell .anchor = t.cell .anchor) (hp : Around t c h p) : Around t' c h p := by
  induction c generalizing h p with
  | top => exact (congrArg Avlh.right ha).trans hp
  | step d a other rest ih =>
    obtain ⟨h₁, h₂, h₃⟩ := hp
    simp only [Path.nodes, List.cons_append, List.mem_cons, List.mem_append] at hc
    exact ⟨(hc a (.inl rfl)).trans h₁, h₂.congr fun b hb => hc b (.inr (.inl hb)),
      ih (fun b hb => hc b (.inr (.inr hb))) h₃⟩

/-- A path with one more step. -/
theorem around_step {t : Avl α} {d : Side} {a : α} {s other : BinaryTree α} {rest : Path α} :
    Around t (.step d a other rest) s.height (root s) ∧ Sub t (.node a) d.sign s ↔
      Around t rest (join d s a other).height (some (.node a)) ∧
        Sub t (up rest) (type rest) (join d s a other) := by
  rw [sub_join, height_join, balance_join, Around]
  tauto

/-- The cells of a whole tree, from any of its nodes. -/
theorem around_plug {t : Avl α} {c : Path α} {s : BinaryTree α} :
    Around t c s.height (root s) ∧ Sub t (up c) (type c) s ↔
      (t.cell .anchor).right = root (c.plug s) ∧ Sub t .anchor 1 (c.plug s) := by
  induction c generalizing s with
  | top => rfl
  | step d a other rest ih =>
    rw [Path.plug_step, ← ih, root_join]
    exact around_step

variable [DecidableEq α]

section Cells

variable (t : Avl α) (r : Ref α) (f : Avlh α → Avlh α)

@[simp] theorem modify_self : (t.modify r f).cell r = f (t.cell r) := Function.update_self ..
theorem modify_of_ne {x : Ref α} (h : x ≠ r) : (t.modify r f).cell x = t.cell x :=
  Function.update_of_ne h ..
@[simp] theorem modify_count : (t.modify r f).count = t.count := rfl
@[simp] theorem modify_height : (t.modify r f).height = t.height := rfl
@[simp] theorem modify_head : (t.modify r f).head = t.head := rfl
@[simp] theorem modify_tail : (t.modify r f).tail = t.tail := rfl

@[simp] theorem setBalance_self (b : ℤ) :
    (setBalance t r b).cell r = (t.cell r).setBalance b :=
  modify_self ..
theorem setBalance_of_ne (b : ℤ) {x : Ref α} (h : x ≠ r) :
    (setBalance t r b).cell x = t.cell x :=
  modify_of_ne _ _ _ h

end Cells

section Ends

variable (t : Avl α) (dir : ℤ) (o n : Ref α)

@[simp] theorem moveEnd_cell : (moveEnd t dir o n).cell = t.cell := by
  unfold moveEnd avlSetEnd
  split_ifs <;> rfl
@[simp] theorem moveEnd_count : (moveEnd t dir o n).count = t.count := by
  unfold moveEnd avlSetEnd
  split_ifs <;> rfl
@[simp] theorem moveEnd_height : (moveEnd t dir o n).height = t.height := by
  unfold moveEnd avlSetEnd
  split_ifs <;> rfl
theorem moveEnd_head :
    (moveEnd t dir o n).head = if dir < 0 ∧ some o = t.head then some n else t.head := by
  unfold moveEnd avlSetEnd Avl.getEnd
  split_ifs <;> simp_all
theorem moveEnd_tail :
    (moveEnd t dir o n).tail = if 0 ≤ dir ∧ some o = t.tail then some n else t.tail := by
  unfold moveEnd avlSetEnd Avl.getEnd
  split_ifs <;> simp_all <;> omega

end Ends

omit [DecidableEq α] in
@[simp] theorem ok_bind {β γ : Type} (a : β) (f : β → Except Fault γ) : (Except.ok a >>= f) = f a :=
  rfl
omit [DecidableEq α] in
@[simp] theorem deref_some (r : Ref α) : deref (some r) = .ok r := rfl

/-- A step that touches cells only. -/
structure SameEnds (t t' : Avl α) : Prop where
  count : t'.count = t.count
  height : t'.height = t.height
  head : t'.head = t.head
  tail : t'.tail = t.tail

omit [DecidableEq α] in
theorem SameEnds.trans {t t' t'' : Avl α} (h : SameEnds t t') (h' : SameEnds t' t'') :
    SameEnds t t'' :=
  ⟨h'.count.trans h.count, h'.height.trans h.height, h'.head.trans h.head, h'.tail.trans h.tail⟩

/-- The cells after a rotation of `n` above `h`. -/
theorem avlhRotate_cells {t : Avl α} {e : Side} {ty tn b bn : ℤ} {h n u : Ref α}
    {pA pB pS q : Option (Ref α)} (hty : narrow2 ty = ty)
    (ch : t.cell h = holder e ty b (some n) (some u) pA)
    (cn : t.cell n = holder e tn bn pB q pS)
    (hn : h ≠ n) (uh : u ≠ h) (un : u ≠ n)
    (hs : ∀ s, pS = some s → s ≠ h ∧ s ≠ n ∧ s ≠ u) :
    ∃ t', avlhRotate t h (-e.sign) = .ok (t', n) ∧ SameEnds t t' ∧
      t'.cell n = holder e ty bn pB (some u) (some h) ∧
      t'.cell h = holder e (-e.sign) b pS (some n) pA ∧
      t'.cell u = (t.cell u).setLink ty (some n) ∧
      (∀ s, pS = some s → t'.cell s = ((t.cell s).setLink 0 (some h)).setType e.sign) ∧
      ∀ x, x ≠ h → x ≠ n → x ≠ u → pS ≠ some x → t'.cell x = t.cell x := by
  cases pS with
  | none =>
    refine ⟨_, by simp [avlhRotate, avlOpposite, ch, cn, avlhSetLink, avlhSetParentLink, setType,
      modify_of_ne, hn, hn.symm]; rfl, ?_, ?_, ?_, ?_, by simp, ?_⟩
    · exact ⟨rfl, rfl, rfl, rfl⟩
    · simp [modify_of_ne, hn.symm, un.symm, cn, hty]
    · simp [modify_of_ne, hn, uh.symm, ch]
    · simp [modify_of_ne, uh, un, hty]
    · intro x h₁ h₂ h₃ _
      simp [modify_of_ne, h₁, h₂, h₃]
  | some s =>
    obtain ⟨sh, sn, su⟩ := hs s rfl
    refine ⟨_, by simp [avlhRotate, avlOpposite, ch, cn, avlhSetLink, avlhSetParentLink, setType,
      modify_of_ne, hn, hn.symm, sh.symm, sn.symm]; rfl, ?_, ?_, ?_, ?_, ?_, ?_⟩
    · exact ⟨rfl, rfl, rfl, rfl⟩
    · simp [modify_of_ne, hn.symm, un.symm, sn.symm, cn, hty]
    · simp [modify_of_ne, hn, uh.symm, sh.symm, ch]
    · simp [modify_of_ne, uh, un, su.symm, hty]
    · rintro _ ⟨⟩
      simp [modify_of_ne, su, sn, sh]
    · intro x h₁ h₂ h₃ h₄
      have h₅ : x ≠ s := fun h => h₄ (by rw [h])
      simp [modify_of_ne, h₁, h₂, h₃, h₅]

omit [DecidableEq α] in
theorem type_sign (c : Path α) : ∃ d : Side, type c = d.sign := by
  cases c with
  | top => exact ⟨.right, rfl⟩
  | step d a other rest => exact ⟨d, rfl⟩

omit [DecidableEq α] in
@[simp] theorem narrow2_type (c : Path α) : narrow2 (type c) = type c := by
  obtain ⟨d, hd⟩ := type_sign c
  rw [hd, narrow2_sign]

omit [DecidableEq α] in
theorem up_ne {c : Path α} {x : α} (h : x ∉ c.nodes) : up c ≠ .node x := by
  cases c with
  | top => simp [up]
  | step d a other rest =>
    rintro ⟨⟩
    exact h List.mem_cons_self

omit [DecidableEq α] in
/-- A subtree is moved under another parent. -/
theorem Sub.rehang {t t' : Avl α} {u u' : Ref α} {ty : ℤ} {e : Side} {s : BinaryTree α}
    (h : Sub t u ty s) (nd : (toList s).Nodup)
    (hr : ∀ x, root s = some x → t'.cell x = ((t.cell x).setLink 0 (some u')).setType e.sign)
    (ho : ∀ a ∈ toList s, root s ≠ some (.node a) → t'.cell (.node a) = t.cell (.node a)) :
    Sub t' u' e.sign s := by
  cases s with
  | nil => trivial
  | node a l r =>
    obtain ⟨h₁, h₂, h₃⟩ := h
    simp only [toList_node, List.nodup_append, List.nodup_cons, List.mem_cons] at nd
    refine ⟨?_, h₂.congr fun b hb => ho b (by simp [hb]) ?_,
      h₃.congr fun b hb => ho b (by simp [hb]) ?_⟩
    · rw [hr _ rfl, h₁]
      cases e <;> rfl
    · rintro ⟨⟩
      exact nd.2.2 a hb a (.inl rfl) rfl
    · rintro ⟨⟩
      exact nd.2.1.1 hb

omit [DecidableEq α] in
/-- The cell above the subtree points to another one. -/
theorem Around.relink {t t' : Avl α} {c : Path α} {h : ℕ} {p : Option (Ref α)}
    (hp : Around t c h p) (nd : c.nodes.Nodup) {q : Option (Ref α)}
    (hu : t'.cell (up c) = (t.cell (up c)).setLink (type c) q)
    (ho : ∀ x, x = .anchor ∨ (∃ a ∈ c.nodes, x = .node a) → x ≠ up c → t'.cell x = t.cell x) :
    Around t' c h q := by
  cases c with
  | top =>
    rw [Around, show Ref.anchor = up (Path.top : Path α) from rfl, hu]
    rfl
  | step d a other rest =>
    obtain ⟨h₁, h₂, h₃⟩ := hp
    simp only [Path.nodes, List.cons_append, List.nodup_cons, List.mem_append, not_or] at nd
    refine ⟨?_, h₂.congr fun b hb => ho _ (.inr ⟨b, ?_, rfl⟩) ?_,
      h₃.congr (fun b hb => ho _ (.inr ⟨b, ?_, rfl⟩) ?_) (ho _ (.inl rfl) ?_)⟩
    · rw [show Ref.node a = up (.step d a other rest) from rfl, hu]
      change (t.cell (.node a)).setLink d.sign q = _
      rw [h₁, holder_setNear]
    · simp [Path.nodes, hb]
    · rintro ⟨⟩
      exact nd.1.1 hb
    · simp [Path.nodes, hb]
    · rintro ⟨⟩
      exact nd.1.2 hb
    · simp [up]

end Libevl.AvlTree
