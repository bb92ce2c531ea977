import Libevl.PageRing
import Mathlib.Data.Set.Insert

/-!
# The lists of list.h

A list is a circle of links through its head. The operations are sequences of
single assignments, each of which sees the ones before it, and the links they go
through may coincide. Joining two lists is only right when the first one has
entries: the head of an empty one ends up among those of the second.
-/
namespace Libevl.ListHead
open PageRing

variable {ι : Type*} [DecidableEq ι]

/-- `struct list_head`, all of them. -/
structure Links (ι : Type*) where
  next : ι → ι
  prev : ι → ι

/-- `a->next = b`. -/
def Links.setNext (m : Links ι) (a b : ι) : Links ι :=
  { m with next := Function.update m.next a b }

/-- `a->prev = b`. -/
def Links.setPrev (m : Links ι) (a b : ι) : Links ι :=
  { m with prev := Function.update m.prev a b }

/-- `inith`, which is `list_init` too. -/
def inith (m : Links ι) (head : ι) : Links ι :=
  let m := m.setNext head head
  m.setPrev head head

/-- `ath`. -/
def ath (m : Links ι) (head e : ι) : Links ι :=
  let m := m.setPrev e head
  let m := m.setNext e (m.next head)
  let m := m.setPrev (m.next e) e
  m.setNext head e

/-- `dth`. -/
def dth (m : Links ι) (e : ι) : Links ι :=
  let m := m.setNext (m.prev e) (m.next e)
  m.setPrev (m.next e) (m.prev e)

/-- `list_prepend`. -/
def listPrepend (m : Links ι) (e head : ι) : Links ι := ath m head e

/-- `list_append`. -/
def listAppend (m : Links ι) (e head : ι) : Links ι := ath m (m.prev head) e

/-- `list_insert`. -/
def listInsert (m : Links ι) (next prev : ι) : Links ι := ath m prev next

/-- `list_join`. -/
def listJoin (m : Links ι) (src dst : ι) : Links ι :=
  let headsrc := m.next src
  let tailsrc := m.prev src
  let m := m.setNext (m.prev headsrc) (m.next tailsrc)
  let m := m.setPrev (m.next tailsrc) (m.prev headsrc)
  let m := m.setPrev headsrc dst
  let m := m.setNext tailsrc (m.next dst)
  let m := m.setPrev (m.next dst) tailsrc
  m.setNext dst headsrc

/-- `list_remove`. -/
def listRemove (m : Links ι) (e : ι) : Links ι := dth m e

/-- `list_remove_init`. -/
def listRemoveInit (m : Links ι) (e : ι) : Links ι := inith (dth m e) e

/-- `list_empty`. -/
def listEmpty (m : Links ι) (head : ι) : Bool := m.next head = head

/-- `list_pop`. -/
def listPop (m : Links ι) (head : ι) : Links ι × ι :=
  let e := m.next head
  (listRemove m e, e)

/-- The positions that `list_for_each` visits, for at most so many turns. -/
def listForEach (m : Links ι) (head : ι) : ℕ → ι → List ι
  | 0, _ => []
  | n + 1, pos => if pos = head then [] else pos :: listForEach m head n (m.next pos)

/-- The heads, and the entries behind each of them. -/
structure Family (ι : Type*) where
  heads : Set ι
  entries : ι → List ι

/-- The links make up all the lists, which share nothing. -/
structure WellFormed (m : Links ι) (F : Family ι) : Prop where
  ring : ∀ h ∈ F.heads, IsRing m.next m.prev (h :: F.entries h)
  disjoint : ∀ h ∈ F.heads, ∀ k ∈ F.heads, h ≠ k →
    List.Disjoint (h :: F.entries h) (k :: F.entries k)

/-- Not in any list. -/
def Family.Fresh (F : Family ι) (e : ι) : Prop := ∀ h ∈ F.heads, e ∉ h :: F.entries h

inductive Op (ι : Type*)
  | init (head : ι)
  | prepend (e head : ι)
  | append (e head : ι)
  | insert (next prev : ι)
  | remove (e : ι)
  | removeInit (e : ι)
  | pop (head : ι)
  | join (src dst : ι)
  deriving DecidableEq, Repr

/-- What the code does, and what `list_pop` returns. -/
def Op.run (m : Links ι) : Op ι → Links ι × Option ι
  | .init head => (inith m head, none)
  | .prepend e head => (listPrepend m e head, none)
  | .append e head => (listAppend m e head, none)
  | .insert next prev => (listInsert m next prev, none)
  | .remove e => (listRemove m e, none)
  | .removeInit e => (listRemoveInit m e, none)
  | .pop head => ((listPop m head).1, some (listPop m head).2)
  | .join src dst => (listJoin m src dst, none)

/-- Where the operation makes sense. -/
def Op.Applies (F : Family ι) : Op ι → Prop
  | .init head => F.Fresh head
  | .prepend e head | .append e head => F.Fresh e ∧ head ∈ F.heads
  | .insert next prev => F.Fresh next ∧ ∃ h ∈ F.heads, prev ∈ h :: F.entries h
  | .remove e | .removeInit e => ∃ h ∈ F.heads, e ∈ F.entries h
  | .pop head => head ∈ F.heads ∧ F.entries head ≠ []
  | .join src dst => src ∈ F.heads ∧ dst ∈ F.heads ∧ src ≠ dst

/-- The new entry goes right behind another one. -/
def insertAfter (p e : ι) : List ι → List ι
  | [] => []
  | x :: l => if x = p then x :: e :: l else x :: insertAfter p e l

def Family.set (F : Family ι) (h : ι) (l : List ι) : Family ι :=
  { F with entries := Function.update F.entries h l }

/-- What the operation means, for the lists and for its result. -/
def Op.edit (F : Family ι) : Op ι → Family ι × Option ι
  | .init head => ({ F.set head [] with heads := {head} ∪ F.heads }, none)
  | .prepend e head => (F.set head (e :: F.entries head), none)
  | .append e head => (F.set head (F.entries head ++ [e]), none)
  | .insert next prev =>
    ({ F with entries := fun h => (insertAfter prev next (h :: F.entries h)).tail }, none)
  | .remove e => ({ F with entries := fun h => (F.entries h).erase e }, none)
  | .removeInit e =>
    (⟨{e} ∪ F.heads, Function.update (fun h => (F.entries h).erase e) e []⟩, none)
  | .pop head => (F.set head (F.entries head).tail, (F.entries head).head?)
  | .join src dst => ((F.set dst (F.entries src ++ F.entries dst)).set src [], none)

/-- All operations but the join of an empty list. -/
def Op.Sound (F : Family ι) : Op ι → Prop
  | .join src _ => F.entries src ≠ []
  | _ => True

section Frame

variable {m m' : Links ι} {F : Family ι} {A B l : List ι} {e h k p x : ι}

omit [DecidableEq ι] in
/-- No node is in two lists. -/
theorem WellFormed.owner (w : WellFormed m F) (hh : h ∈ F.heads) (hk : k ∈ F.heads)
    (hx : x ∈ h :: F.entries h) (hx' : x ∈ k :: F.entries k) : h = k := by
  by_contra hne
  exact w.disjoint h hh k hk hne hx hx'

omit [DecidableEq ι] in
/-- Only the entries behind heads matter. -/
theorem WellFormed.congr {f : ι → List ι} (w : WellFormed m F)
    (hf : ∀ h ∈ F.heads, f h = F.entries h) : WellFormed m ⟨F.heads, f⟩ := by
  constructor
  · intro h hh
    show IsRing m.next m.prev (h :: f h)
    rw [hf h hh]
    exact w.ring h hh
  · intro h hh k hk hne
    show List.Disjoint (h :: f h) (k :: f k)
    rw [hf h hh, hf k hk]
    exact w.disjoint h hh k hk hne

/-- One list changes, and takes nothing from the others. -/
theorem WellFormed.replace (w : WellFormed m F) (hh : h ∈ F.heads)
    (hring : IsRing m'.next m'.prev (h :: l)) (hl : ∀ x ∈ l, x ∈ F.entries h ∨ F.Fresh x)
    (hframe : ∀ k ∈ F.heads, k ≠ h → ∀ x ∈ k :: F.entries k,
      m'.next x = m.next x ∧ m'.prev x = m.prev x) : WellFormed m' (F.set h l) := by
  have hothers (k : ι) (hk : k ∈ F.heads) (hne : k ≠ h) :
      List.Disjoint (h :: l) (k :: F.entries k) := by
    intro x hx hx'
    rcases List.mem_cons.mp hx with rfl | hx
    · exact hne (w.owner hk hh hx' List.mem_cons_self)
    · rcases hl x hx with hx | hx
      · exact hne (w.owner hk hh hx' (List.mem_cons_of_mem h hx))
      · exact hx k hk hx'
  constructor
  · intro k hk
    by_cases hkh : k = h
    · subst hkh
      simpa [Family.set] using hring
    · have hkeep := (w.ring k hk).congr (fun x hx => (hframe k hk hkh x hx).1)
        (fun x hx => (hframe k hk hkh x hx).2)
      simpa [Family.set, Function.update_of_ne hkh] using hkeep
  · intro j hj k hk hne
    by_cases hjh : j = h
    · subst hjh
      simpa [Family.set, Function.update_of_ne hne.symm] using hothers k hk hne.symm
    · by_cases hkh : k = h
      · subst hkh
        simpa [Family.set, Function.update_of_ne hne] using
          List.disjoint_symm (hothers j hj hne)
      · simpa [Family.set, Function.update_of_ne hjh, Function.update_of_ne hkh] using
          w.disjoint j hj k hk hne

omit [DecidableEq ι] in
/-- A list which is not there yet. -/
theorem WellFormed.add [DecidableEq ι] (w : WellFormed m F) (hf : F.Fresh h)
    (hring : IsRing m'.next m'.prev [h])
    (hframe : ∀ k ∈ F.heads, ∀ x ∈ k :: F.entries k, m'.next x = m.next x ∧ m'.prev x = m.prev x) :
    WellFormed m' ⟨{h} ∪ F.heads, Function.update F.entries h []⟩ := by
  have hne (k : ι) (hk : k ∈ F.heads) : k ≠ h := by
    rintro rfl
    exact hf k hk List.mem_cons_self
  have hempty (k : ι) (hk : k ∈ F.heads) : List.Disjoint [h] (k :: F.entries k) := by
    intro x hx hx'
    rw [List.mem_singleton.mp hx] at hx'
    exact hf k hk hx'
  constructor
  · intro k hk
    rcases hk with rfl | hk
    · simpa using hring
    · have hkeep := (w.ring k hk).congr (fun x hx => (hframe k hk x hx).1)
        (fun x hx => (hframe k hk x hx).2)
      simpa [Function.update_of_ne (hne k hk)] using hkeep
  · intro j hj k hk hjk
    rcases hj with rfl | hj
    · rcases hk with rfl | hk
      · exact absurd rfl hjk
      · simpa [Function.update_of_ne (hne k hk)] using hempty k hk
    · rcases hk with rfl | hk
      · simpa [Function.update_of_ne (hne j hj)] using List.disjoint_symm (hempty j hj)
      · simpa [Function.update_of_ne (hne j hj), Function.update_of_ne (hne k hk)] using
          w.disjoint j hj k hk hjk

end Frame

section Step

variable {m : Links ι} {F : Family ι} {A B l : List ι} {e h k p x src dst : ι}

/-- The head is read before it is written, even where it is its own neighbour. -/
theorem ath_links (m : Links ι) (head e : ι) : ath m head e =
    ⟨Function.update (Function.update m.next e (m.next head)) head e,
      Function.update (Function.update m.prev e head) (m.next head) e⟩ := by
  simp [ath, Links.setNext, Links.setPrev]

theorem dth_links (m : Links ι) (e : ι) : dth m e =
    ⟨Function.update m.next (m.prev e) (m.next e), Function.update m.prev (m.next e) (m.prev e)⟩ := by
  have hnext : Function.update m.next (m.prev e) (m.next e) e = m.next e := by
    by_cases he : e = m.prev e
    · rw [← he, Function.update_self]
    · rw [Function.update_of_ne he]
  simp [dth, Links.setNext, Links.setPrev, hnext]

theorem inith_links (m : Links ι) (h : ι) :
    inith m h = ⟨Function.update m.next h h, Function.update m.prev h h⟩ := rfl

/-- `ath`, behind any node of any list. -/
theorem ath_wellFormed (w : WellFormed m F) (hf : F.Fresh e) (hh : h ∈ F.heads)
    (hs : h :: F.entries h = A ++ p :: B) (hl : h :: l = A ++ p :: e :: B) :
    WellFormed (ath m p e) (F.set h l) := by
  have hring := w.ring h hh
  have hp : p ∈ h :: F.entries h := by simp [hs]
  have hn := hring.next_mem hp
  have he := hf h hh
  rw [ath_links]
  apply w.replace hh
  · rw [hs] at hring he
    rw [hl]
    exact hring.insertBehind he
  · intro x hx
    have hx' : x ∈ A ++ p :: e :: B := hl ▸ List.mem_cons_of_mem h hx
    have hnd : (h :: l).Nodup := by
      rw [hs] at hring he
      rw [hl]
      exact (hring.insertBehind he).nodup
    have hxh : x ≠ h := fun hxh => (List.nodup_cons.mp hnd).1 (hxh ▸ hx)
    by_cases hxe : x = e
    · exact .inr (hxe ▸ hf)
    · have hxs : x ∈ h :: F.entries h := by
        rw [hs]
        simp only [List.mem_append, List.mem_cons] at hx' ⊢
        tauto
      exact .inl ((List.mem_cons.mp hxs).resolve_left hxh)
  · intro k hk hkh x hx
    have hxe : x ≠ e := fun hxe => hf k hk (hxe ▸ hx)
    have hxp : x ≠ p := fun hxp => hkh (w.owner hk hh hx (hxp ▸ hp))
    have hxn : x ≠ m.next p := fun hxn => hkh (w.owner hk hh hx (hxn ▸ hn))
    simp only [Function.update_of_ne hxp, Function.update_of_ne hxn, Function.update_of_ne hxe,
      and_self]

/-- `dth`, on any entry. -/
theorem dth_wellFormed (w : WellFormed m F) (hh : h ∈ F.heads) (hs : F.entries h = A ++ e :: B) :
    WellFormed (dth m e) (F.set h (A ++ B)) := by
  have hring := w.ring h hh
  have he : e ∈ h :: F.entries h := by simp [hs]
  have hn := hring.next_mem he
  have hp := hring.prev_mem he
  rw [dth_links]
  apply w.replace hh
  · rw [hs] at hring
    have hring' : IsRing m.next m.prev ((h :: A) ++ e :: B) := hring
    exact hring'.erase (List.cons_ne_nil h (A ++ B))
  · intro x hx
    apply Or.inl
    rw [hs]
    simp only [List.mem_append, List.mem_cons] at hx ⊢
    tauto
  · intro k hk hkh x hx
    have hxp : x ≠ m.prev e := fun hxp => hkh (w.owner hk hh hx (hxp ▸ hp))
    have hxn : x ≠ m.next e := fun hxn => hkh (w.owner hk hh hx (hxn ▸ hn))
    simp only [Function.update_of_ne hxp, Function.update_of_ne hxn, and_self]

/-- `inith`, on a head that is in no list. -/
theorem inith_wellFormed (w : WellFormed m F) (hf : F.Fresh h) :
    WellFormed (inith m h) ⟨{h} ∪ F.heads, Function.update F.entries h []⟩ := by
  rw [inith_links]
  apply w.add hf
  · exact .singleton (Function.update_self ..) (Function.update_self ..)
  · intro k hk x hx
    have hxh : x ≠ h := fun hxh => hf k hk (hxh ▸ hx)
    exact ⟨Function.update_of_ne hxh .., Function.update_of_ne hxh ..⟩

end Step

section Operations

variable {m : Links ι} {F : Family ι} {A B : List ι} {e h p src dst : ι}

theorem listPrepend_wellFormed (w : WellFormed m F) (hf : F.Fresh e) (hh : h ∈ F.heads) :
    WellFormed (listPrepend m e h) (F.set h (e :: F.entries h)) :=
  ath_wellFormed (A := []) w hf hh rfl rfl

theorem listAppend_wellFormed (w : WellFormed m F) (hf : F.Fresh e) (hh : h ∈ F.heads) :
    WellFormed (listAppend m e h) (F.set h (F.entries h ++ [e])) := by
  have hlast : (h :: F.entries h).getLast? = some (m.prev h) := by
    simpa using (w.ring h hh).getLast_around (A := [])
  obtain ⟨A, hA⟩ := List.getLast?_eq_some_iff.mp hlast
  apply ath_wellFormed (A := A) w hf hh hA
  rw [← List.cons_append, hA, List.append_assoc, List.singleton_append]

theorem insertAfter_split (hA : p ∉ A) : insertAfter p e (A ++ p :: B) = A ++ p :: e :: B := by
  induction A with
  | nil => simp [insertAfter]
  | cons a A ih =>
    rw [List.mem_cons, not_or] at hA
    obtain ⟨hne, hA⟩ := hA
    simp [insertAfter, Ne.symm hne, ih hA]

theorem insertAfter_of_notMem {l : List ι} (hl : p ∉ l) : insertAfter p e l = l := by
  induction l with
  | nil => rfl
  | cons a l ih =>
    rw [List.mem_cons, not_or] at hl
    obtain ⟨hne, hl⟩ := hl
    simp [insertAfter, Ne.symm hne, ih hl]

theorem listInsert_wellFormed (w : WellFormed m F) (hf : F.Fresh e) (hh : h ∈ F.heads)
    (hp : p ∈ h :: F.entries h) :
    WellFormed (listInsert m e p)
      { F with entries := fun h => (insertAfter p e (h :: F.entries h)).tail } := by
  obtain ⟨A, B, hs⟩ := List.append_of_mem hp
  have hA : p ∉ A := by
    have hnd := (w.ring h hh).nodup
    rw [hs] at hnd
    exact fun hA => (List.nodup_append.mp hnd).2.2 p hA p List.mem_cons_self rfl
  have hcut : insertAfter p e (h :: F.entries h) = A ++ p :: e :: B := by
    rw [hs, insertAfter_split hA]
  have hl : h :: (insertAfter p e (h :: F.entries h)).tail = A ++ p :: e :: B := by
    rw [hcut]
    cases A with
    | nil => rw [List.cons.inj hs |>.1]; rfl
    | cons a A => rw [List.cons.inj hs |>.1]; rfl
  apply (ath_wellFormed w hf hh hs hl).congr
  intro k hk
  by_cases hkh : k = h
  · subst hkh
    simp [Family.set]
  · have hpk : p ∉ k :: F.entries k := fun hpk => hkh (w.owner hk hh hpk hp)
    simp [Family.set, Function.update_of_ne hkh, insertAfter_of_notMem hpk]

/-- The list without an entry, wherever it was. -/
theorem erase_entry (w : WellFormed m F) (hh : h ∈ F.heads) (hs : F.entries h = A ++ e :: B) :
    ∀ k ∈ F.heads, (F.entries k).erase e = (F.set h (A ++ B)).entries k := by
  intro k hk
  by_cases hkh : k = h
  · subst hkh
    have hnd := (List.nodup_cons.mp (w.ring k hk).nodup).2
    rw [hs] at hnd
    have hA : e ∉ A := fun hA => (List.nodup_append.mp hnd).2.2 e hA e List.mem_cons_self rfl
    rw [hs, List.erase_append_right _ hA, List.erase_cons_head]
    simp [Family.set]
  · have hek : e ∉ F.entries k := by
      intro hek
      exact hkh (w.owner hk hh (List.mem_cons_of_mem k hek) (by simp [hs]))
    rw [List.erase_of_not_mem hek]
    simp [Family.set, Function.update_of_ne hkh]

theorem listRemove_wellFormed (w : WellFormed m F) (hh : h ∈ F.heads) (he : e ∈ F.entries h) :
    WellFormed (listRemove m e) { F with entries := fun h => (F.entries h).erase e } := by
  obtain ⟨A, B, hs⟩ := List.append_of_mem he
  exact (dth_wellFormed w hh hs).congr (erase_entry w hh hs)

/-- What has been removed is in no list. -/
theorem fresh_of_erase (w : WellFormed m F) (hh : h ∈ F.heads) (he : e ∈ F.entries h) :
    Family.Fresh { F with entries := fun h => (F.entries h).erase e } e := by
  intro k hk hek
  rcases List.mem_cons.mp hek with rfl | hek
  · have hown := w.owner hk hh List.mem_cons_self (List.mem_cons_of_mem h he)
    subst hown
    exact (List.nodup_cons.mp (w.ring e hk).nodup).1 he
  · have hnd := (List.nodup_cons.mp (w.ring k hk).nodup).2
    exact hnd.not_mem_erase hek

theorem listRemoveInit_wellFormed (w : WellFormed m F) (hh : h ∈ F.heads) (he : e ∈ F.entries h) :
    WellFormed (listRemoveInit m e)
      ⟨{e} ∪ F.heads, Function.update (fun h => (F.entries h).erase e) e []⟩ :=
  inith_wellFormed (listRemove_wellFormed w hh he) (fresh_of_erase w hh he)

theorem listPop_wellFormed (w : WellFormed m F) (hh : h ∈ F.heads) (hne : F.entries h ≠ []) :
    WellFormed (listPop m h).1 (F.set h (F.entries h).tail) ∧
      some (listPop m h).2 = (F.entries h).head? := by
  obtain ⟨e, B, hs⟩ := List.exists_cons_of_ne_nil hne
  have hring := w.ring h hh
  rw [hs] at hring
  have he : m.next h = e := (hring.next_eq (A := [])).1
  rw [hs, List.tail_cons, List.head?_cons, listPop, he]
  exact ⟨dth_wellFormed (A := []) w hh hs, rfl⟩

end Operations

section Join

variable {m : Links ι} {F : Family ι} {src dst a e z : ι}

/-- The entries of a source that has some. -/
theorem listJoin_links (w : WellFormed m F) (hs : src ∈ F.heads) (hd : dst ∈ F.heads)
    (hne : src ≠ dst) (ha : (F.entries src).head? = some a)
    (hz : (F.entries src).getLast? = some z) :
    listJoin m src dst =
      ⟨Function.update (Function.update (Function.update m.next src src) z (m.next dst)) dst a,
        Function.update (Function.update (Function.update m.prev src src) a dst) (m.next dst) z⟩ := by
  have hring := w.ring src hs
  have hsrc : src ∉ F.entries src := (List.nodup_cons.mp hring.nodup).1
  have hzS : z ∈ F.entries src := List.mem_of_getLast? hz
  obtain ⟨hn, hp⟩ := hring.around (A := [])
  rw [List.append_nil, ha, Option.getD_some] at hn
  rw [List.append_nil, hz, Option.getD_some] at hp
  have hpa : m.prev a = src := by
    obtain ⟨l, hl⟩ := List.head?_eq_some_iff.mp ha
    rw [hl] at hring
    exact (hring.next_eq (A := [])).2
  have hnz : m.next z = src :=
    (hring.close (a := z) (by rw [List.getLast?_cons, hz]; rfl) rfl).1
  have hzs : z ≠ src := fun h => hsrc (h ▸ hzS)
  have hdz : dst ≠ z := by
    rintro rfl
    exact hne (w.owner hs hd (List.mem_cons_of_mem src hzS) List.mem_cons_self)
  simp only [listJoin, Links.setNext, Links.setPrev, hn, hp, hpa, hnz,
    Function.update_of_ne hzs, Function.update_of_ne hne.symm, Function.update_of_ne hdz]

/-- A list gives up its entries. -/
theorem inith_emptied (w : WellFormed m F) (hs : src ∈ F.heads) :
    WellFormed (inith m src) (F.set src []) := by
  rw [inith_links]
  apply w.replace hs
  · exact .singleton (Function.update_self ..) (Function.update_self ..)
  · intro x hx
    exact absurd hx List.not_mem_nil
  · intro k hk hks x hx
    have hxs : x ≠ src := fun hxs => hks (w.owner hk hs hx (hxs ▸ List.mem_cons_self))
    exact ⟨Function.update_of_ne hxs .., Function.update_of_ne hxs ..⟩

/-- Nothing refers to the entries that were given up. -/
theorem fresh_of_emptied (w : WellFormed m F) (hs : src ∈ F.heads) (he : e ∈ F.entries src) :
    (F.set src []).Fresh e := by
  intro k hk hek
  by_cases hks : k = src
  · subst hks
    have hself : e = k := by simpa [Family.set] using hek
    exact (List.nodup_cons.mp (w.ring k hk).nodup).1 (hself ▸ he)
  · have hek' : e ∈ k :: F.entries k := by simpa [Family.set, Function.update_of_ne hks] using hek
    exact hks (w.owner hk hs hek' (List.mem_cons_of_mem src he))

/-- The entries of the source come first, and the source is empty. -/
theorem listJoin_wellFormed (w : WellFormed m F) (hs : src ∈ F.heads) (hd : dst ∈ F.heads)
    (hne : src ≠ dst) (hentries : F.entries src ≠ []) :
    WellFormed (listJoin m src dst)
      ((F.set dst (F.entries src ++ F.entries dst)).set src []) := by
  have ha := List.head?_eq_some_head hentries
  have hz := List.getLast?_eq_some_getLast hentries
  -- the same as emptying the source, and splicing its entries into the destination
  have w' := inith_emptied w hs
  have hfresh {x : ι} (hx : x ∈ F.entries src) := fresh_of_emptied w hs hx
  have hD : (F.set src []).entries dst = F.entries dst := Function.update_of_ne hne.symm ..
  have hnext : (inith m src).next dst = m.next dst := Function.update_of_ne hne.symm ..
  have hsrc : src ∉ F.entries src := (List.nodup_cons.mp (w.ring src hs).nodup).1
  have hring := w'.ring dst hd
  have hn := hring.next_mem List.mem_cons_self
  have hset : (F.set dst (F.entries src ++ F.entries dst)).set src [] =
      (F.set src []).set dst (F.entries src ++ F.entries dst) := by
    simp only [Family.set, Function.update_comm hne]
  rw [hset, listJoin_links w hs hd hne ha hz, ← hnext]
  apply w'.replace hd
  · have hlinked : Linked (inith m src).next (inith m src).prev (F.entries src) := by
      apply (w.ring src hs).linked_tail.congr
      · intro x hx
        exact Function.update_of_ne (ne_of_mem_of_not_mem (List.dropLast_subset _ hx) hsrc) ..
      · intro x hx
        exact Function.update_of_ne (ne_of_mem_of_not_mem (List.mem_of_mem_tail hx) hsrc) ..
    rw [hD] at hring
    refine IsRing.splice hlinked (w.ring src hs).nodup.tail hring ?_ ha hz
    intro x hx hx'
    exact hfresh hx dst hd (hD ▸ hx')
  · intro x hx
    rcases List.mem_append.mp hx with hx | hx
    · exact .inr (hfresh hx)
    · exact .inl (hD ▸ hx)
  · intro k hk hkd x hx
    have hxa : x ≠ (F.entries src).head hentries := fun h =>
      hfresh (List.head_mem hentries) k hk (h ▸ hx)
    have hxz : x ≠ (F.entries src).getLast hentries := fun h =>
      hfresh (List.getLast_mem hentries) k hk (h ▸ hx)
    have hxd : x ≠ dst := fun h => hkd (w'.owner hk hd hx (h ▸ List.mem_cons_self))
    have hxn : x ≠ (inith m src).next dst := fun h => hkd (w'.owner hk hd hx (h ▸ hn))
    constructor
    · exact (Function.update_of_ne hxd ..).trans (Function.update_of_ne hxz ..)
    · exact (Function.update_of_ne hxn ..).trans (Function.update_of_ne hxa ..)

/-- The head of an empty source ends up linked to the destination. -/
theorem listJoin_empty (w : WellFormed m F) (hs : src ∈ F.heads) (hne : src ≠ dst)
    (hentries : F.entries src = []) : (listJoin m src dst).next src = m.next dst := by
  have hring := w.ring src hs
  rw [hentries] at hring
  obtain ⟨hn, hp⟩ := hring.around (A := [])
  simp only [List.append_nil, List.head?_nil, List.getLast?_nil, Option.getD_none] at hn hp
  simp only [listJoin, Links.setNext, Links.setPrev, hn, hp, Function.update_of_ne hne,
    Function.update_of_ne hne.symm, Function.update_self]

theorem listJoin_empty_broken (w : WellFormed m F) (hs : src ∈ F.heads) (hd : dst ∈ F.heads)
    (hne : src ≠ dst) (hentries : F.entries src = []) :
    ¬ WellFormed (listJoin m src dst)
      ((F.set dst (F.entries src ++ F.entries dst)).set src []) := by
  intro w'
  have hring := w'.ring src hs
  simp only [Family.set, Function.update_self] at hring
  have hself : (listJoin m src dst).next src = src := (hring.around (A := [])).1
  rw [listJoin_empty w hs hne hentries] at hself
  have hn := (w.ring dst hd).next_mem List.mem_cons_self
  exact hne (w.owner hs hd List.mem_cons_self (hself ▸ hn))

end Join

/-- Each operation does what it means, whatever nodes coincide. -/
theorem run_sound {m : Links ι} {F : Family ι} (w : WellFormed m F) (op : Op ι)
    (ha : op.Applies F) (hs : op.Sound F) :
    WellFormed (op.run m).1 (op.edit F).1 ∧ (op.run m).2 = (op.edit F).2 := by
  cases op with
  | init h => exact ⟨inith_wellFormed w ha, rfl⟩
  | prepend e h => exact ⟨listPrepend_wellFormed w ha.1 ha.2, rfl⟩
  | append e h => exact ⟨listAppend_wellFormed w ha.1 ha.2, rfl⟩
  | insert e p =>
    obtain ⟨hf, h, hh, hp⟩ := ha
    exact ⟨listInsert_wellFormed w hf hh hp, rfl⟩
  | remove e =>
    obtain ⟨h, hh, he⟩ := ha
    exact ⟨listRemove_wellFormed w hh he, rfl⟩
  | removeInit e =>
    obtain ⟨h, hh, he⟩ := ha
    exact ⟨listRemoveInit_wellFormed w hh he, rfl⟩
  | pop h => exact listPop_wellFormed w ha.1 ha.2
  | join src dst =>
    obtain ⟨hsrc, hdst, hne⟩ := ha
    exact ⟨listJoin_wellFormed w hsrc hdst hne hs, rfl⟩

/-- Only the join of an empty list does not do what it means, and it never does. -/
theorem run_wellFormed_iff {m : Links ι} {F : Family ι} (w : WellFormed m F) (op : Op ι)
    (ha : op.Applies F) :
    (WellFormed (op.run m).1 (op.edit F).1 ∧ (op.run m).2 = (op.edit F).2) ↔ op.Sound F := by
  constructor
  · intro h
    cases op with
    | join src dst =>
      obtain ⟨hsrc, hdst, hne⟩ := ha
      exact fun hentries => listJoin_empty_broken w hsrc hdst hne hentries h.1
    | _ => trivial
  · exact run_sound w op ha

/-- A list with an entry, and an empty one. -/
def twoLists : Links ℕ where
  next := fun x => if x = 1 then 2 else if x = 2 then 1 else x
  prev := fun x => if x = 1 then 2 else if x = 2 then 1 else x

def twoFamily : Family ℕ := ⟨{0, 1}, fun h => if h = 1 then [2] else []⟩

theorem twoLists_wellFormed : WellFormed twoLists twoFamily := by
  constructor
  · intro h hh
    rcases hh with rfl | rfl
    · exact .singleton rfl rfl
    · exact ⟨by decide, linked_cons_cons.mpr ⟨⟨rfl, rfl⟩, linked_pair.mpr ⟨rfl, rfl⟩⟩⟩
  · intro h hh k hk hne
    rcases hh with rfl | rfl <;> rcases hk with rfl | rfl
    · exact absurd rfl hne
    · simp [twoFamily]
    · simp [twoFamily]
    · exact absurd rfl hne

/-- An entry that is on no list is appended to the empty one. -/
theorem run_wellFormed_iff_two :
    WellFormed (((Op.append 3 0).run twoLists).1) ((Op.append 3 0).edit twoFamily).1 ∧
      ((Op.append 3 0).run twoLists).2 = ((Op.append 3 0).edit twoFamily).2 := by
  refine (run_wellFormed_iff twoLists_wellFormed (.append 3 0) ⟨?_, .inl rfl⟩).mpr trivial
  intro h hh
  rcases hh with rfl | rfl <;> simp [twoFamily]

/-- The empty list is joined to the other one: the traversal of that one meets the head of the
empty list as an entry, and the empty list is not empty any more. -/
theorem join_empty_misplaced :
    WellFormed twoLists twoFamily ∧ (Op.join 0 1).Applies twoFamily ∧
      ¬ WellFormed (((Op.join 0 1).run twoLists).1) ((Op.join 0 1).edit twoFamily).1 ∧
      listForEach (listJoin twoLists 0 1) 1 4 ((listJoin twoLists 0 1).next 1) = [0, 2] ∧
      listEmpty (listJoin twoLists 0 1) 0 = false := by
  have hne : (0 : ℕ) ≠ 1 := by decide
  refine ⟨twoLists_wellFormed, ⟨.inl rfl, .inr rfl, hne⟩, ?_, by decide, by decide⟩
  exact listJoin_empty_broken twoLists_wellFormed (.inl rfl) (.inr rfl) hne rfl

section Runs

variable {m : Links ι} {F : Family ι} {h : ι}

/-- Each operation of the sequence applies, and joins no empty list. -/
def Admits (F : Family ι) : List (Op ι) → Prop
  | [] => True
  | op :: ops => op.Applies F ∧ op.Sound F ∧ Admits (op.edit F).1 ops

/-- From any lists on, whatever the operations. -/
theorem runs_wellFormed {ops : List (Op ι)} (w : WellFormed m F) (ha : Admits F ops) :
    WellFormed (ops.foldl (fun m op => (op.run m).1) m)
      (ops.foldl (fun F op => (op.edit F).1) F) := by
  induction ops generalizing m F with
  | nil => exact w
  | cons op ops ih =>
    obtain ⟨happ, hsound, hrest⟩ := ha
    exact ih ((run_sound w op happ hsound).1) hrest

omit [DecidableEq ι] in
/-- No list at all, in any memory. -/
theorem wellFormed_none (m : Links ι) (f : ι → List ι) : WellFormed m ⟨∅, f⟩ :=
  ⟨fun _ hh => absurd hh (Set.notMem_empty _), fun _ hh => absurd hh (Set.notMem_empty _)⟩

theorem listEmpty_iff (w : WellFormed m F) (hh : h ∈ F.heads) :
    listEmpty m h = true ↔ F.entries h = [] := by
  have hself := (w.ring h hh).next_self_iff (A := [])
  rw [listEmpty, decide_eq_true_iff, hself, List.nil_append]

/-- What a traversal meets is what the list contains. -/
theorem listForEach_entries (w : WellFormed m F) (hh : h ∈ F.heads) {n : ℕ}
    (hn : (F.entries h).length < n) : listForEach m h n (m.next h) = F.entries h := by
  have hring := w.ring h hh
  have hwalk (B : List ι) : ∀ (A : List ι) (pos : ι) (n : ℕ), F.entries h = A ++ B →
      (B ++ [h]).head? = some pos → B.length < n → listForEach m h n pos = B := by
    induction B with
    | nil =>
      intro A pos n _ hpos hlen
      obtain ⟨n, rfl⟩ := Nat.exists_eq_succ_of_ne_zero hlen.ne'
      obtain rfl : h = pos := Option.some.inj hpos
      simp [listForEach]
    | cons b B ih =>
      intro A pos n hs hpos hlen
      obtain ⟨n, rfl⟩ := Nat.exists_eq_succ_of_ne_zero (by omega : n ≠ 0)
      obtain rfl : b = pos := Option.some.inj hpos
      have hbh : b ≠ h := by
        rintro rfl
        exact (List.nodup_cons.mp hring.nodup).1 (by simp [hs])
      have hsplit : IsRing m.next m.prev ((h :: A) ++ b :: B) := by
        rw [List.cons_append, ← hs]
        exact hring
      have hnext : (B ++ [h]).head? = some (m.next b) := by
        have hhead := hsplit.head_around
        cases B <;> exact hhead
      rw [listForEach, if_neg hbh]
      congr 1
      apply ih (A ++ [b]) (m.next b) n _ hnext
      · simpa using hlen
      · simpa using hs
  apply hwalk (F.entries h) [] (m.next h) n rfl _ hn
  simpa using hring.head_around (A := [])

end Runs

end Libevl.ListHead
