import Mathlib.Data.List.Chain
import Mathlib.Data.List.Nodup
import Mathlib.Logic.Function.Iterate

/-!
# Circular doubly linked lists

The links are two functions. A list of nodes is a ring when following one of
them runs through it and back to its head, and the other one undoes each step.
A ring may be entered at any of its nodes, so insertion and removal are only
proved at the end of the list.
-/
namespace Libevl.PageRing

variable {ι : Type*}

/-- The links run through the list, from each node to the one behind it. -/
def Linked (next prev : ι → ι) (L : List ι) : Prop :=
  L.IsChain fun a b => next a = b ∧ prev b = a

/-- The links run through the list and back to its head. -/
structure IsRing (next prev : ι → ι) (L : List ι) : Prop where
  nodup : L.Nodup
  linked : Linked next prev (L ++ L.head?.toList)

variable {next prev next' prev' : ι → ι} {L A B : List ι} {a b x y : ι}

/-- Only the links between neighbours matter. -/
theorem Linked.congr (hn : ∀ z ∈ L.dropLast, next' z = next z)
    (hp : ∀ z ∈ L.tail, prev' z = prev z) (h : Linked next prev L) : Linked next' prev' L := by
  induction L with
  | nil => exact .nil
  | cons a l ih =>
    cases l with
    | nil => exact .singleton a
    | cons b l =>
      obtain ⟨⟨h₁, h₂⟩, h₃⟩ := List.isChain_cons_cons.mp h
      refine List.isChain_cons_cons.mpr ⟨⟨?_, ?_⟩, ih ?_ ?_ h₃⟩
      · rw [hn a (by simp), h₁]
      · rw [hp b (by simp), h₂]
      · intro z hz
        exact hn z (by simp [hz])
      · intro z hz
        exact hp z (by simp at hz ⊢; exact .inr hz)

/-- The last node may be linked to something else, and so may the first one. -/
theorem Linked.congr_ends (hnd : L.Nodup) (ha : L.head? = some a) (hb : L.getLast? = some b)
    (hn : ∀ z ∈ L, z ≠ b → next' z = next z) (hp : ∀ z ∈ L, z ≠ a → prev' z = prev z)
    (h : Linked next prev L) : Linked next' prev' L := by
  apply h.congr
  · intro z hz
    apply hn z (List.dropLast_subset L hz)
    rintro rfl
    obtain ⟨l, rfl⟩ := List.getLast?_eq_some_iff.mp hb
    rw [List.dropLast_concat] at hz
    exact (List.nodup_append.mp hnd).2.2 z hz z (by simp) rfl
  · intro z hz
    apply hp z (List.mem_of_mem_tail hz)
    rintro rfl
    obtain ⟨l, rfl⟩ := List.head?_eq_some_iff.mp ha
    exact (List.nodup_cons.mp hnd).1 hz

theorem linked_pair : Linked next prev [a, b] ↔ next a = b ∧ prev b = a := List.isChain_pair

theorem linked_cons_cons :
    Linked next prev (a :: b :: L) ↔ (next a = b ∧ prev b = a) ∧ Linked next prev (b :: L) :=
  List.isChain_cons_cons

theorem linked_split : Linked next prev (A ++ a :: B) ↔
    Linked next prev (A ++ [a]) ∧ Linked next prev (a :: B) :=
  List.isChain_split

/-- Two lists and the link from one to the other. -/
theorem Linked.append (hA : Linked next prev A) (hB : Linked next prev B) (ha : A.getLast? = some a)
    (hb : B.head? = some b) (hn : next a = b) (hp : prev b = a) : Linked next prev (A ++ B) := by
  refine List.isChain_append.mpr ⟨hA, hB, fun x hx y hy => ?_⟩
  obtain rfl : a = x := Option.some.inj (ha.symm.trans hx)
  obtain rfl : b = y := Option.some.inj (hb.symm.trans hy)
  exact ⟨hn, hp⟩

theorem isRing_iff (hb : L.head? = some b) :
    IsRing next prev L ↔ L.Nodup ∧ Linked next prev (L ++ [b]) := by
  constructor
  · rintro ⟨h₁, h₂⟩
    rw [hb] at h₂
    exact ⟨h₁, h₂⟩
  · rintro ⟨h₁, h₂⟩
    refine ⟨h₁, ?_⟩
    rw [hb]
    exact h₂

namespace IsRing

theorem nil : IsRing next prev [] := ⟨List.nodup_nil, .nil⟩

theorem singleton (hn : next a = a) (hp : prev a = a) : IsRing next prev [a] :=
  ⟨List.nodup_singleton a, linked_pair.mpr ⟨hn, hp⟩⟩

/-- Without its head, a ring is a list of linked nodes. -/
theorem linked_tail (h : IsRing next prev (a :: L)) : Linked next prev L := by
  have hl : Linked next prev ((a :: L) ++ [a]) := h.linked
  exact (List.isChain_append.mp hl).1.tail

/-- A ring is entered at any of its nodes. -/
theorem rotate (h : IsRing next prev (A ++ B)) : IsRing next prev (B ++ A) := by
  refine ⟨List.perm_append_comm.nodup h.nodup, ?_⟩
  cases A with
  | nil => simpa using h.linked
  | cons a A =>
    cases B with
    | nil => simpa using h.linked
    | cons b B =>
      have hl : Linked next prev ((a :: A) ++ b :: (B ++ [a])) := by simpa using h.linked
      obtain ⟨h₁, h₂⟩ := linked_split.mp hl
      have hr : Linked next prev ((b :: B) ++ a :: (A ++ [b])) := linked_split.mpr ⟨h₂, h₁⟩
      simpa using hr

theorem congr (h : IsRing next prev L) (hn : ∀ z ∈ L, next' z = next z)
    (hp : ∀ z ∈ L, prev' z = prev z) : IsRing next' prev' L := by
  refine ⟨h.nodup, h.linked.congr (fun z hz => hn z ?_) (fun z hz => hp z ?_)⟩
  · cases L with
    | nil => simp at hz
    | cons a l =>
      rwa [List.head?_cons, Option.toList_some, List.dropLast_concat] at hz
  · cases L with
    | nil => simp at hz
    | cons a l => simpa [or_comm] using hz

/-- The node behind another one. -/
theorem next_eq (h : IsRing next prev (A ++ a :: b :: B)) : next a = b ∧ prev b = a := by
  have hl : Linked next prev (A ++ a :: b :: (B ++ (A ++ a :: b :: B).head?.toList)) := by
    simpa using h.linked
  exact (linked_cons_cons.mp (linked_split.mp hl).2).1

/-- The head is behind the last node. -/
theorem close (h : IsRing next prev L) (ha : L.getLast? = some a) (hb : L.head? = some b) :
    next a = b ∧ prev b = a := by
  obtain ⟨l, rfl⟩ := List.getLast?_eq_some_iff.mp ha
  have hl := ((isRing_iff hb).mp h).2
  rw [List.append_assoc] at hl
  exact linked_pair.mp (linked_split.mp hl).2

/-- The links of any node. -/
theorem around (h : IsRing next prev (A ++ x :: B)) :
    next x = ((B ++ A).head?).getD x ∧ prev x = ((B ++ A).getLast?).getD x := by
  have hr : IsRing next prev (x :: (B ++ A)) := by simpa using h.rotate
  cases hba : B ++ A with
  | nil =>
    rw [hba] at hr
    exact hr.close rfl rfl
  | cons b l =>
    rw [hba] at hr
    refine ⟨(hr.next_eq (A := [])).1, ?_⟩
    rw [(hr.close (List.getLast?_eq_getLast_of_ne_nil (by simp)) rfl).2]
    simp [List.getLast?_eq_getLast_of_ne_nil]

/-- What follows a node, with the node itself behind it, starts where its link leads. -/
theorem head_around (h : IsRing next prev (A ++ x :: B)) :
    (B ++ A ++ [x]).head? = some (next x) := by
  rw [h.around.1]
  cases B ++ A <;> rfl

theorem getLast_around (h : IsRing next prev (A ++ x :: B)) :
    (x :: (B ++ A)).getLast? = some (prev x) := by
  rw [h.around.2, List.getLast?_cons]

theorem next_mem (h : IsRing next prev L) (hx : x ∈ L) : next x ∈ L := by
  obtain ⟨A, B, rfl⟩ := List.append_of_mem hx
  have hnext := List.mem_of_head? h.head_around
  simp only [List.mem_append, List.mem_cons, List.not_mem_nil, or_false] at hnext ⊢
  tauto

theorem prev_mem (h : IsRing next prev L) (hx : x ∈ L) : prev x ∈ L := by
  obtain ⟨A, B, rfl⟩ := List.append_of_mem hx
  have hprev := List.mem_of_getLast? h.getLast_around
  simp only [List.mem_append, List.mem_cons] at hprev ⊢
  tauto

/-- A node is alone when it follows itself. -/
theorem next_self_iff (h : IsRing next prev (A ++ x :: B)) : next x = x ↔ A ++ B = [] := by
  rw [h.around.1]
  constructor
  · intro hs
    have hx := (List.nodup_cons.mp (List.perm_middle.nodup h.nodup)).1
    cases hba : B ++ A with
    | nil =>
      obtain ⟨rfl, rfl⟩ := List.append_eq_nil_iff.mp hba
      rfl
    | cons b l =>
      rw [hba, List.head?_cons, Option.getD_some] at hs
      have hb : b ∈ B ++ A := hba ▸ List.mem_cons_self
      exact absurd (hs ▸ hb) (by simpa [or_comm] using hx)
  · intro hs
    obtain ⟨rfl, rfl⟩ := List.append_eq_nil_iff.mp hs
    rfl

/-- Following the links from the head meets every node. -/
theorem mem_iff (h : IsRing next prev L) (ha : L.head? = some a) :
    x ∈ L ↔ ∃ k, next^[k] a = x := by
  obtain ⟨l, rfl⟩ := List.head?_eq_some_iff.mp ha
  constructor
  · intro hx
    obtain ⟨A, B, hs⟩ := List.append_of_mem hx
    refine ⟨A.length, ?_⟩
    induction A using List.reverseRecOn generalizing x B with
    | nil =>
      cases hs
      rfl
    | append_singleton A y ih =>
      have hs' : a :: l = A ++ y :: x :: B := by simpa using hs
      have hy := ih (hs' ▸ by simp) (x :: B) hs'
      rw [List.length_append, List.length_singleton, Function.iterate_succ_apply', hy]
      rw [hs'] at h
      exact h.next_eq.1
  · rintro ⟨k, rfl⟩
    induction k with
    | zero => exact List.mem_cons_self
    | succ k ih =>
      rw [Function.iterate_succ_apply']
      exact h.next_mem ih

section Update

variable [DecidableEq ι]

/-- A new node between the last one and the head. -/
theorem insert (h : IsRing next prev L) (ha : L.getLast? = some a) (hb : L.head? = some b)
    (hx : x ∉ L) :
    IsRing (Function.update (Function.update next x b) a x)
      (Function.update (Function.update prev x a) b x) (L ++ [x]) := by
  obtain ⟨l, hl⟩ := List.getLast?_eq_some_iff.mp ha
  obtain ⟨r, hr⟩ := List.head?_eq_some_iff.mp hb
  have hnd := h.nodup
  have hax : a ≠ x := fun hax => hx (by simp [hl, hax])
  have hbx : b ≠ x := fun hbx => hx (by simp [hr, hbx])
  have hlinked : Linked next prev (l ++ a :: [b]) := by
    have := ((isRing_iff hb).mp h).2
    rwa [hl, List.append_assoc] at this
  have hlast := (linked_split.mp hlinked).1
  have hgoal : Linked (Function.update (Function.update next x b) a x)
      (Function.update (Function.update prev x a) b x) (l ++ a :: [x, b]) := by
    refine linked_split.mpr ⟨?_, ?_⟩
    · rw [← hl] at hlast ⊢
      apply hlast.congr_ends hnd hb ha
      · intro z hz hza
        rw [Function.update_of_ne hza, Function.update_of_ne (ne_of_mem_of_not_mem hz hx)]
      · intro z hz hzb
        rw [Function.update_of_ne hzb, Function.update_of_ne (ne_of_mem_of_not_mem hz hx)]
    · refine linked_cons_cons.mpr ⟨⟨by simp, ?_⟩, linked_pair.mpr ⟨?_, by simp⟩⟩
      · rw [Function.update_of_ne hbx.symm, Function.update_self]
      · rw [Function.update_of_ne hax.symm, Function.update_self]
  refine (isRing_iff (b := b) (by simp [hr])).mpr ⟨?_, ?_⟩
  · exact (List.perm_append_singleton x L).nodup_iff.mpr (List.nodup_cons.mpr ⟨hx, hnd⟩)
  · simpa [hl] using hgoal

/-- A new node behind any other one. -/
theorem insertBehind (h : IsRing next prev (A ++ a :: B)) (hx : x ∉ A ++ a :: B) :
    IsRing (Function.update (Function.update next x (next a)) a x)
      (Function.update (Function.update prev x a) (next a) x) (A ++ a :: x :: B) := by
  have hr : IsRing next prev (B ++ (A ++ [a])) := by
    have : IsRing next prev ((A ++ [a]) ++ B) := by simpa using h
    exact this.rotate
  have hb : (B ++ (A ++ [a])).head? = some (next a) := by
    rw [← List.append_assoc]
    exact h.head_around
  have hx' : x ∉ B ++ (A ++ [a]) := by
    intro hm
    apply hx
    simp only [List.mem_append, List.mem_cons, List.not_mem_nil, or_false] at hm ⊢
    rcases hm with hm | hm | hm
    · exact .inr (.inr hm)
    · exact .inl hm
    · exact .inr (.inl hm)
  have ha : (B ++ (A ++ [a])).getLast? = some a := by
    rw [← List.append_assoc, List.getLast?_concat]
  have hins := hr.insert ha hb hx'
  rw [List.append_assoc] at hins
  simpa using hins.rotate

/-- The last node leaves. -/
theorem dropLast (h : IsRing next prev (L ++ [x])) (ha : L.getLast? = some a)
    (hb : L.head? = some b) :
    IsRing (Function.update next a b) (Function.update prev b a) L := by
  obtain ⟨l, hl⟩ := List.getLast?_eq_some_iff.mp ha
  obtain ⟨r, hr⟩ := List.head?_eq_some_iff.mp hb
  have hnd := (List.nodup_append.mp h.nodup).1
  have hlinked : Linked next prev (l ++ a :: [x, b]) := by
    have := ((isRing_iff (b := b) (by simp [hr])).mp h).2
    simpa [hl] using this
  have hlast := (linked_split.mp hlinked).1
  have hgoal : Linked (Function.update next a b) (Function.update prev b a) (l ++ a :: [b]) := by
    refine linked_split.mpr ⟨?_, ?_⟩
    · rw [← hl] at hlast ⊢
      apply hlast.congr_ends hnd hb ha
      · intro z _ hza
        rw [Function.update_of_ne hza]
      · intro z _ hzb
        rw [Function.update_of_ne hzb]
    · exact linked_pair.mpr ⟨by simp, by simp⟩
  refine (isRing_iff hb).mpr ⟨hnd, ?_⟩
  rwa [hl, List.append_assoc]

/-- Any node leaves, when it is not alone. -/
theorem erase (h : IsRing next prev (A ++ x :: B)) (hne : A ++ B ≠ []) :
    IsRing (Function.update next (prev x) (next x)) (Function.update prev (next x) (prev x))
      (A ++ B) := by
  obtain ⟨hn, hp⟩ := h.around
  have hne' : B ++ A ≠ [] := by simpa [and_comm] using hne
  have ha := List.getLast?_eq_getLast_of_ne_nil hne'
  have hb := List.head?_eq_some_head hne'
  rw [ha, Option.getD_some] at hp
  rw [hb, Option.getD_some] at hn
  have hr : IsRing next prev ((B ++ A) ++ [x]) := by
    have : IsRing next prev ((A ++ [x]) ++ B) := by simpa using h
    simpa using this.rotate
  rw [hn, hp]
  exact (hr.dropLast ha hb).rotate

/-- Linked nodes from elsewhere follow a node of the ring. -/
theorem splice {S D : List ι} {d : ι} (hlS : Linked next prev S) (hS : S.Nodup)
    (hd : IsRing next prev (d :: D)) (hdis : List.Disjoint S (d :: D)) (ha : S.head? = some a)
    (hb : S.getLast? = some b) :
    IsRing (Function.update (Function.update next b (next d)) d a)
      (Function.update (Function.update prev a d) (next d) b) (d :: (S ++ D)) := by
  obtain ⟨hdD, hD⟩ := List.nodup_cons.mp hd.nodup
  have haS : a ∈ S := List.mem_of_head? ha
  have hbS : b ∈ S := List.mem_of_getLast? hb
  have hnd : next d ∈ d :: D := hd.next_mem List.mem_cons_self
  have hne {x y : ι} (hx : x ∈ S) (hy : y ∈ d :: D) : x ≠ y := fun h => hdis hx (h ▸ hy)
  have hnext : (D ++ [d]).head? = some (next d) := by
    simpa using hd.head_around (A := [])
  have hD' : (D ++ [d]).Nodup := (List.perm_append_singleton d D).nodup_iff.mpr hd.nodup
  have hmem {z : ι} (hz : z ∈ D ++ [d]) : z ∈ d :: D := by simpa [or_comm] using hz
  have hlD : Linked next prev (D ++ [d]) := by
    have hl : Linked next prev (d :: (D ++ [d])) := hd.linked
    exact List.IsChain.tail hl
  have hhead : (S ++ (D ++ [d])).head? = some a := by
    rw [List.head?_append, ha]
    rfl
  have hgoal : Linked (Function.update (Function.update next b (next d)) d a)
      (Function.update (Function.update prev a d) (next d) b) ([d] ++ (S ++ (D ++ [d]))) := by
    refine Linked.append (.singleton d) (Linked.append ?_ ?_ hb hnext ?_ ?_)
      (List.getLast?_singleton ..) hhead ?_ ?_
    · -- the new nodes keep their links among each other
      apply hlS.congr_ends hS ha hb
      · intro z hz hzb
        rw [Function.update_of_ne (hne hz List.mem_cons_self), Function.update_of_ne hzb]
      · intro z hz hza
        rw [Function.update_of_ne (hne hz hnd), Function.update_of_ne hza]
    · apply hlD.congr_ends hD' hnext List.getLast?_concat
      · intro z hz hzd
        rw [Function.update_of_ne hzd, Function.update_of_ne (hne hbS (hmem hz)).symm]
      · intro z hz hzn
        rw [Function.update_of_ne hzn, Function.update_of_ne (hne haS (hmem hz)).symm]
    · rw [Function.update_of_ne (hne hbS List.mem_cons_self), Function.update_self]
    · exact Function.update_self ..
    · exact Function.update_self ..
    · rw [Function.update_of_ne (hne haS hnd), Function.update_self]
  refine (isRing_iff (b := d) rfl).mpr ⟨List.nodup_cons.mpr ⟨?_, ?_⟩, by simpa using hgoal⟩
  · exact fun h => (List.mem_append.mp h).elim (fun hdS => hne hdS List.mem_cons_self rfl) hdD
  · exact List.nodup_append'.mpr ⟨hS, hD, fun z h₁ h₂ => hne h₁ (List.mem_cons_of_mem d h₂) rfl⟩

end Update

end IsRing

section Front

variable {p q : ι → Prop}

/-- The nodes with a property come first. -/
def Front (p : ι → Prop) (L : List ι) : Prop := L.Pairwise fun a b => p b → p a

theorem Front.of_none (h : ∀ x ∈ L, ¬ p x) : Front p L :=
  List.pairwise_of_forall_mem_list fun _ _ y hy hp => absurd hp (h y hy)

/-- When the first node has not got the property, none has. -/
theorem Front.none (h : Front p (a :: L)) (ha : ¬ p a) : ∀ x ∈ a :: L, ¬ p x := by
  intro x hx hp
  rcases List.mem_cons.mp hx with rfl | hx
  · exact ha hp
  · exact ha ((List.pairwise_cons.mp h).1 x hx hp)

theorem Front.tail (h : Front p (a :: L)) : Front p L := (List.pairwise_cons.mp h).2

theorem Front.cons (h : Front p L) (ha : p a) : Front p (a :: L) :=
  List.pairwise_cons.mpr ⟨fun _ _ _ => ha, h⟩

theorem Front.concat (h : Front p L) (ha : ¬ p a) : Front p (L ++ [a]) := by
  refine List.pairwise_append.mpr ⟨h, List.pairwise_singleton _ _, fun x _ y hy hp => ?_⟩
  obtain rfl := List.mem_singleton.mp hy
  exact absurd hp ha

theorem Front.congr (h : Front p L) (hpq : ∀ x ∈ L, q x ↔ p x) : Front q L :=
  h.imp_of_mem fun ha hb hab hq => (hpq _ ha).mpr (hab ((hpq _ hb).mp hq))

theorem Front.erase (h : Front p (A ++ x :: B)) : Front p (A ++ B) :=
  h.sublist ((List.sublist_cons_self x B).append_left A)

end Front

end Libevl.PageRing
