import Libevl.HeapRange
import Libevl.PageRing

/-!
# The bucket lists

The pages with blocks of one size form a ring through their pagemap entries,
entered at the bucket head. The list operations relink entries and touch nothing
else, and they only follow links to pages of that ring.
-/
namespace Libevl.Heap
open AvlTree PageRing

/-- The links of a pagemap. -/
def nextOf (m : ℤ → HeapPgentry) (x : ℤ) : ℤ := (m x).next
def prevOf (m : ℤ → HeapPgentry) (x : ℤ) : ℤ := (m x).prev

def linkNext (m : ℤ → HeapPgentry) (x y : ℤ) : ℤ → HeapPgentry :=
  Function.update m x ((m x).setNext y)

def linkPrev (m : ℤ → HeapPgentry) (x y : ℤ) : ℤ → HeapPgentry :=
  Function.update m x ((m x).setPrev y)

section Links

variable (m : ℤ → HeapPgentry) (x y : ℤ)

@[simp] theorem nextOf_linkPrev : nextOf (linkPrev m x y) = nextOf m := by
  ext z
  by_cases hz : z = x
  · subst hz
    simp [nextOf, linkPrev, HeapPgentry.setPrev]
  · simp [nextOf, linkPrev, hz]

@[simp] theorem prevOf_linkNext : prevOf (linkNext m x y) = prevOf m := by
  ext z
  by_cases hz : z = x
  · subst hz
    simp [prevOf, linkNext, HeapPgentry.setNext]
  · simp [prevOf, linkNext, hz]

/-- A page number fits a link. -/
theorem nextOf_linkNext (h₀ : 0 ≤ y) (h₁ : y < 2 ^ 23) :
    nextOf (linkNext m x y) = Function.update (nextOf m) x y := by
  ext z
  by_cases hz : z = x
  · subst hz
    simp only [nextOf, linkNext, HeapPgentry.setNext, Function.update_self]
    exact Int.emod_eq_of_lt h₀ h₁
  · simp [nextOf, linkNext, hz]

theorem prevOf_linkPrev (h₀ : 0 ≤ y) (h₁ : y < 2 ^ 23) :
    prevOf (linkPrev m x y) = Function.update (prevOf m) x y := by
  ext z
  by_cases hz : z = x
  · subst hz
    simp only [prevOf, linkPrev, HeapPgentry.setPrev, Function.update_self]
    exact Int.emod_eq_of_lt h₀ h₁
  · simp [prevOf, linkPrev, hz]

end Links

/-- Only the links of the pages in `S` differ. -/
structure SameContent (m m' : ℤ → HeapPgentry) (S : List ℤ) : Prop where
  type (x : ℤ) : (m' x).type = (m x).type
  map (x : ℤ) : (m' x).map = (m x).map
  frame (x : ℤ) : x ∉ S → m' x = m x

theorem SameContent.refl (m : ℤ → HeapPgentry) (S : List ℤ) : SameContent m m S :=
  ⟨fun _ => rfl, fun _ => rfl, fun _ _ => rfl⟩

theorem SameContent.trans {m m' m'' : ℤ → HeapPgentry} {S : List ℤ} (h : SameContent m m' S)
    (h' : SameContent m' m'' S) : SameContent m m'' S :=
  ⟨fun x => (h'.type x).trans (h.type x), fun x => (h'.map x).trans (h.map x),
    fun x hx => (h'.frame x hx).trans (h.frame x hx)⟩

theorem SameContent.mono {m m' : ℤ → HeapPgentry} {S T : List ℤ} (h : SameContent m m' S)
    (hst : ∀ x ∈ S, x ∈ T) : SameContent m m' T :=
  ⟨h.type, h.map, fun x hx => h.frame x fun hs => hx (hst x hs)⟩

theorem sameContent_update {m : ℤ → HeapPgentry} {x : ℤ} {e : HeapPgentry} {S : List ℤ}
    (hx : x ∈ S) (ht : e.type = (m x).type) (hm : e.map = (m x).map) :
    SameContent m (Function.update m x e) S := by
  refine ⟨fun z => ?_, fun z => ?_, fun z hz => ?_⟩
  · by_cases h : z = x
    · rw [h, Function.update_self, ht]
    · rw [Function.update_of_ne h]
  · by_cases h : z = x
    · rw [h, Function.update_self, hm]
    · rw [Function.update_of_ne h]
  · exact Function.update_of_ne (fun h : z = x => hz (h ▸ hx)) ..

theorem sameContent_linkNext {m : ℤ → HeapPgentry} {x y : ℤ} {S : List ℤ} (hx : x ∈ S) :
    SameContent m (linkNext m x y) S :=
  sameContent_update hx rfl rfl

theorem sameContent_linkPrev {m : ℤ → HeapPgentry} {x y : ℤ} {S : List ℤ} (hx : x ∈ S) :
    SameContent m (linkPrev m x y) S :=
  sameContent_update hx rfl rfl

section Access

variable {ext : HeapExtent} {pg : ℤ}

/-- A page of the extent. -/
def HeapExtent.HasPage (ext : HeapExtent) (pg : ℤ) : Prop := 0 ≤ pg ∧ pg < ext.nrpages

theorem entry_eq (h : ext.HasPage pg) : ext.entry pg = .ok (ext.pagemap pg) := if_pos h

theorem setNext_eq (h : ext.HasPage pg) (y : ℤ) :
    ext.setNext pg y = .ok (ext.withPagemap (linkNext ext.pagemap pg y)) := by
  simp only [HeapExtent.setNext, HeapExtent.modify, entry_eq h, ok_bind]
  rfl

theorem setPrev_eq (h : ext.HasPage pg) (y : ℤ) :
    ext.setPrev pg y = .ok (ext.withPagemap (linkPrev ext.pagemap pg y)) := by
  simp only [HeapExtent.setPrev, HeapExtent.modify, entry_eq h, ok_bind]
  rfl

@[simp] theorem hasPage_withPagemap {m : ℤ → HeapPgentry} :
    (ext.withPagemap m).HasPage pg ↔ ext.HasPage pg := Iff.rfl

@[simp] theorem withPagemap_pagemap {m : ℤ → HeapPgentry} : (ext.withPagemap m).pagemap = m := rfl
@[simp] theorem withPagemap_mem {m : ℤ → HeapPgentry} : (ext.withPagemap m).mem = ext.mem := rfl
@[simp] theorem withPagemap_twice {m m' : ℤ → HeapPgentry} :
    (ext.withPagemap m).withPagemap m' = ext.withPagemap m' := rfl

end Access

section Lists

variable {h : EvlHeap} {ext : HeapExtent} {l : ℕ} {pg : ℤ} {A B L : List ℤ}

/-- A list operation turns the ring `L` into `L'`. Links change in the pages of `S` only, and
only pages of `L` are looked up. -/
structure Relinks (h : EvlHeap) (ext : HeapExtent) (l : ℕ) (L L' S : List ℤ) (h' : EvlHeap)
    (ext' : HeapExtent) : Prop where
  extent : ext' = ext.withPagemap ext'.pagemap
  content : SameContent ext.pagemap ext'.pagemap S
  ring : IsRing (nextOf ext'.pagemap) (prevOf ext'.pagemap) L'
  heap : h' = (h.setBucket (l - 4) (L'.head?.getD (-1))).withUses h'.uses
  uses : ∀ u ∈ h'.uses, u ∈ h.uses ∨ u.ext = ext.mem ∧ u.page ∈ L ∧ u.log2size = l

/-- The bucket head and the links of a page list. -/
structure OnList (h : EvlHeap) (ext : HeapExtent) (l : ℕ) (L : List ℤ) : Prop where
  index : l - 4 < 5
  head : h.buckets (l - 4) = L.head?.getD (-1)
  ring : IsRing (nextOf ext.pagemap) (prevOf ext.pagemap) L
  pages : ∀ x ∈ L, ext.HasPage x
  bound : ext.nrpages ≤ 2 ^ 23

theorem OnList.bucket_eq (hl : OnList h ext l L) : h.bucket (l - 4) = .ok (L.head?.getD (-1)) := by
  rw [EvlHeap.bucket, if_pos hl.index, hl.head]

theorem OnList.lt (hl : OnList h ext l L) (h : ext.HasPage pg) : 0 ≤ pg ∧ pg < 2 ^ 23 :=
  ⟨h.1, h.2.trans_le hl.bound⟩

section Untouched

variable {L' S : List ℤ} {h' : EvlHeap} {ext' : HeapExtent} (hr : Relinks h ext l L L' S h' ext')
include hr

theorem Relinks.extents : h'.extents = h.extents := by
  rw [hr.heap]
  rfl

theorem Relinks.usableSize : h'.usableSize = h.usableSize := by
  rw [hr.heap]
  rfl

theorem Relinks.usedSize : h'.usedSize = h.usedSize := by
  rw [hr.heap]
  rfl

theorem Relinks.buckets :
    h'.buckets = Function.update h.buckets (l - 4) (L'.head?.getD (-1)) := by
  rw [hr.heap]
  rfl

end Untouched

theorem Relinks.onList {L' S : List ℤ} {h' : EvlHeap} {ext' : HeapExtent}
    (hr : Relinks h ext l L L' S h' ext') (hl : OnList h ext l L) (hs : ∀ x ∈ L', ext.HasPage x) :
    OnList h' ext' l L' := by
  have hbuckets : h'.buckets (l - 4) = L'.head?.getD (-1) := by
    rw [hr.buckets]
    exact Function.update_self ..
  refine ⟨hl.index, hbuckets, hr.ring, fun x hx => ?_, ?_⟩
  · rw [hr.extent]
    exact hs x hx
  · rw [hr.extent]
    exact hl.bound

/-- Two list operations in a row. -/
theorem Relinks.trans {L' L'' S : List ℤ} {h' h'' : EvlHeap} {ext' ext'' : HeapExtent}
    (hr : Relinks h ext l L L' S h' ext') (hr' : Relinks h' ext' l L' L'' S h'' ext'')
    (hs : ∀ x ∈ L', x ∈ L) : Relinks h ext l L L'' S h'' ext'' := by
  have hmem : ext'.mem = ext.mem := by rw [hr.extent]; rfl
  refine ⟨?_, hr.content.trans hr'.content, hr'.ring, ?_, fun u hu => ?_⟩
  · rw [hr'.extent, hr.extent]
    rfl
  · rw [hr'.heap, hr.heap]
    simp [EvlHeap.setBucket, EvlHeap.withUses]
  · rcases hr'.uses u hu with hu | ⟨h₁, h₂, h₃⟩
    · exact hr.uses u hu
    · exact .inr ⟨h₁.trans hmem, hs _ h₂, h₃⟩

/-- `add_page_front` puts the page in front, and the old head behind all others. -/
theorem addPageFront_spec (hl : OnList h ext l L) (hpg : ext.HasPage pg) (hx : pg ∉ L) :
    ∃ h' ext', addPageFront h ext pg l = .ok (h', ext') ∧
      Relinks h ext l L (pg :: (L.tail ++ L.head?.toList)) (pg :: L) h' ext' := by
  have hb := hl.bucket_eq
  obtain ⟨h₀, h₁⟩ := hl.lt hpg
  cases L with
  | nil =>
    refine ⟨h.setBucket (l - 4) pg,
      ext.withPagemap (linkPrev (linkNext ext.pagemap pg pg) pg pg), ?_, rfl, ?_, ?_, rfl, ?_⟩
    · simp only [List.head?_nil, Option.getD_none] at hb
      simp only [addPageFront, hb, ok_bind, if_true, setNext_eq, setPrev_eq, hasPage_withPagemap,
        hpg, withPagemap_pagemap, withPagemap_twice]
      rfl
    · exact (sameContent_linkNext (by simp)).trans (sameContent_linkPrev (by simp))
    · refine IsRing.singleton ?_ ?_
      · simp [nextOf_linkNext _ _ _ h₀ h₁]
      · simp [prevOf_linkPrev _ _ _ h₀ h₁]
    · exact fun u hu => .inl hu
  | cons b R =>
    simp only [List.head?_cons, Option.getD_some] at hb
    have hbp := hl.pages b List.mem_cons_self
    have hbne : b ≠ -1 := by
      have := hbp.1
      omega
    have hrot : IsRing (nextOf ext.pagemap) (prevOf ext.pagemap) (R ++ [b]) :=
      IsRing.rotate (A := [b]) hl.ring
    obtain ⟨f, hf⟩ : ∃ f, (R ++ [b]).head? = some f := by cases R <;> exact ⟨_, rfl⟩
    have hfm : f ∈ b :: R := by simpa [or_comm] using List.mem_of_head? hf
    have hfp := hl.pages f hfm
    obtain ⟨hf₀, hf₁⟩ := hl.lt hfp
    obtain ⟨hb₀, hb₁⟩ := hl.lt hbp
    have hnext := (hrot.close List.getLast?_concat hf).1
    let m₁ := linkPrev ext.pagemap pg b
    let m₂ := linkNext m₁ pg f
    let m₃ := linkPrev m₂ f pg
    let m₄ := linkNext m₃ b pg
    have e₁ : (m₁ b).next = f := (congrFun (nextOf_linkPrev ext.pagemap pg b) b).trans hnext
    have e₂ : (m₂ pg).next = f := by
      refine (congrFun (nextOf_linkNext m₁ pg f hf₀ hf₁) pg).trans ?_
      rw [Function.update_self]
    refine ⟨((h.touch ext b l).touch ext f l).setBucket (l - 4) pg, ext.withPagemap m₄, ?_, rfl,
      ?_, ?_, rfl, ?_⟩
    · simp only [addPageFront, hb, ok_bind, hbne, if_false, setPrev_eq, hasPage_withPagemap, hpg,
        entry_eq, hbp, withPagemap_pagemap, e₁, setNext_eq, withPagemap_twice, e₂, hfp, m₁, m₂, m₃,
        m₄]
      rfl
    · exact (((sameContent_linkPrev (by simp)).trans (sameContent_linkNext (by simp))).trans
        (sameContent_linkPrev (List.mem_cons_of_mem _ hfm))).trans (sameContent_linkNext (by simp))
    · have hins := hrot.insert List.getLast?_concat hf (by simpa [or_comm] using hx)
      have hring : IsRing (nextOf m₄) (prevOf m₄) ((R ++ [b]) ++ [pg]) := by
        simp only [m₁, m₂, m₃, m₄, nextOf_linkNext _ _ _ h₀ h₁, nextOf_linkNext _ _ _ hf₀ hf₁,
          prevOf_linkPrev _ _ _ h₀ h₁, prevOf_linkPrev _ _ _ hb₀ hb₁, nextOf_linkPrev,
          prevOf_linkNext]
        exact hins
      exact hring.rotate
    · intro u hu
      rcases List.mem_cons.mp hu with rfl | hu
      · exact .inr ⟨rfl, hfm, rfl⟩
      · rcases List.mem_cons.mp hu with rfl | hu
        · exact .inr ⟨rfl, List.mem_cons_self, rfl⟩
        · exact .inl hu

/-- `remove_page` takes the page out of its ring. -/
theorem removePage_spec (hl : OnList h ext l (A ++ pg :: B)) :
    ∃ h' ext', removePage h ext pg l = .ok (h', ext') ∧
      Relinks h ext l (A ++ pg :: B) (A ++ B) (A ++ pg :: B) h' ext' := by
  have hb := hl.bucket_eq
  have hpg : ext.HasPage pg := hl.pages pg (by simp)
  have hself := hl.ring.next_self_iff
  by_cases hone : A ++ B = []
  · obtain ⟨rfl, rfl⟩ := List.append_eq_nil_iff.mp hone
    have hnext : pg = (ext.pagemap pg).next := (hself.mpr rfl).symm
    refine ⟨h.setBucket (l - 4) (-1), ext, ?_, rfl, .refl _ _, .nil, rfl, fun u hu => .inl hu⟩
    simp only [removePage, hb, ok_bind, entry_eq, hpg]
    rw [if_pos hnext]
    rfl
  · have hnext : ¬ pg = (ext.pagemap pg).next := fun hs => hone (hself.mp hs.symm)
    have hn := hl.ring.around.1
    have hnm : nextOf ext.pagemap pg ∈ A ++ pg :: B := hl.ring.next_mem (by simp)
    have hpm : prevOf ext.pagemap pg ∈ A ++ pg :: B := hl.ring.prev_mem (by simp)
    have hnp := hl.pages _ hnm
    have hpp := hl.pages _ hpm
    obtain ⟨hn₀, hn₁⟩ := hl.lt hnp
    obtain ⟨hp₀, hp₁⟩ := hl.lt hpp
    let h₀ := if pg = (A ++ pg :: B).head?.getD (-1) then h.setBucket (l - 4) (nextOf ext.pagemap pg)
      else h
    have hh₀ : h₀ = h.setBucket (l - 4) ((A ++ B).head?.getD (-1)) := by
      cases A with
      | nil =>
        have hb' : B.head?.getD (-1) = nextOf ext.pagemap pg := by
          rw [hn]
          cases B with
          | nil => exact absurd rfl hone
          | cons b B => simp
        rw [show h₀ = h.setBucket (l - 4) (nextOf ext.pagemap pg) from if_pos rfl, ← hb']
        rfl
      | cons a A =>
        have hap : ¬ pg = a := by
          rintro rfl
          have := hl.ring.nodup
          simp at this
        rw [show h₀ = h from if_neg hap, EvlHeap.setBucket, List.cons_append, List.head?_cons,
          Option.getD_some, show a = h.buckets (l - 4) from hl.head.symm, Function.update_eq_self]
    have huses : h₀.uses = h.uses := by rw [hh₀]; rfl
    refine ⟨(h₀.touch ext (prevOf ext.pagemap pg) l).touch ext (nextOf ext.pagemap pg) l,
      ext.withPagemap (linkPrev (linkNext ext.pagemap (prevOf ext.pagemap pg)
        (nextOf ext.pagemap pg)) (nextOf ext.pagemap pg) (prevOf ext.pagemap pg)), ?_, rfl, ?_, ?_,
      ?_, ?_⟩
    · simp only [removePage, hb, ok_bind, entry_eq, hpg]
      rw [if_neg hnext]
      simp only [setNext_eq, setPrev_eq, hasPage_withPagemap, withPagemap_pagemap,
        withPagemap_twice, show ext.HasPage (ext.pagemap pg).prev from hpp,
        show ext.HasPage (ext.pagemap pg).next from hnp, ok_bind]
      rfl
    · exact (sameContent_linkNext hpm).trans (sameContent_linkPrev hnm)
    · simp only [withPagemap_pagemap, nextOf_linkPrev, prevOf_linkPrev _ _ _ hp₀ hp₁,
        nextOf_linkNext _ _ _ hn₀ hn₁, prevOf_linkNext]
      exact hl.ring.erase hone
    · rw [hh₀]
      rfl
    · intro u hu
      rcases List.mem_cons.mp hu with rfl | hu
      · exact .inr ⟨rfl, hnm, rfl⟩
      · rcases List.mem_cons.mp hu with rfl | hu
        · exact .inr ⟨rfl, hpm, rfl⟩
        · exact .inl (huses ▸ hu)

/-- `move_page_back` puts the page behind all others. -/
theorem movePageBack_spec (hl : OnList h ext l (A ++ pg :: B)) :
    ∃ h' ext', movePageBack h ext pg l = .ok (h', ext') ∧
      Relinks h ext l (A ++ pg :: B) (A ++ B ++ [pg]) (A ++ pg :: B) h' ext' := by
  have hpg : ext.HasPage pg := hl.pages pg (by simp)
  have hself := hl.ring.next_self_iff
  by_cases hone : A ++ B = []
  · obtain ⟨rfl, rfl⟩ := List.append_eq_nil_iff.mp hone
    have hnext : pg = (ext.pagemap pg).next := (hself.mpr rfl).symm
    refine ⟨h, ext, ?_, rfl, .refl _ _, hl.ring, ?_, fun u hu => .inl hu⟩
    · simp only [movePageBack, ok_bind, entry_eq, hpg]
      rw [if_pos hnext]
      rfl
    · have hb : h.buckets (l - 4) = pg := hl.head
      simp only [List.append_nil, List.nil_append, List.head?_cons, Option.getD_some]
      rw [EvlHeap.setBucket, ← hb, Function.update_eq_self]
      rfl
  · have hnext : ¬ pg = (ext.pagemap pg).next := fun hs => hone (hself.mp hs.symm)
    obtain ⟨h₁, ext₁, hrun, hr⟩ := removePage_spec hl
    have hmem {x : ℤ} (hx : x ∈ A ++ B) : x ∈ A ++ pg :: B := by
      simp only [List.mem_append, List.mem_cons] at hx ⊢
      tauto
    have hl₁ := hr.onList hl fun x hx => hl.pages x (hmem hx)
    have hpages {x : ℤ} (hx : ext.HasPage x) : ext₁.HasPage x := by
      rw [hr.extent]
      exact hx
    have hpg₁ := hpages hpg
    have hb := hl₁.bucket_eq
    have hhead := List.head?_eq_some_head hone
    have hlast := List.getLast?_eq_getLast_of_ne_nil hone
    obtain ⟨hn, hp⟩ := hl₁.ring.close hlast hhead
    have hfm := List.head_mem hone
    have ham := List.getLast_mem hone
    generalize (A ++ B).head hone = f at hn hp hhead hfm
    generalize (A ++ B).getLast hone = a at hn hp hlast ham
    rw [hhead, Option.getD_some] at hb
    have hfp := hl₁.pages f hfm
    have hap := hl₁.pages a ham
    obtain ⟨hf₀, hf₁⟩ := hl₁.lt hfp
    obtain ⟨ha₀, ha₁⟩ := hl₁.lt hap
    obtain ⟨hg₀, hg₁⟩ := hl₁.lt hpg₁
    have hx : pg ∉ A ++ B := (List.nodup_cons.mp (List.perm_middle.nodup hl.ring.nodup)).1
    let m₁ := linkPrev ext₁.pagemap pg a
    let m₂ := linkNext m₁ pg f
    let m₃ := linkPrev m₂ f pg
    let m₄ := linkNext m₃ a pg
    have e₁ : (ext₁.pagemap f).prev = a := hp
    have e₂ : (m₁ a).next = f := (congrFun (nextOf_linkPrev ext₁.pagemap pg a) a).trans hn
    have hback : Relinks h₁ ext₁ l (A ++ B) (A ++ B ++ [pg]) (A ++ pg :: B)
        (((h₁.touch ext₁ f l).touch ext₁ a l).touch ext₁ f l) (ext₁.withPagemap m₄) := by
      refine ⟨rfl, ?_, ?_, ?_, ?_⟩
      · exact (((sameContent_linkPrev (by simp)).trans (sameContent_linkNext (by simp))).trans
          (sameContent_linkPrev (hmem hfm))).trans (sameContent_linkNext (hmem ham))
      · simp only [withPagemap_pagemap, m₁, m₂, m₃, m₄, nextOf_linkNext _ _ _ hg₀ hg₁,
          nextOf_linkNext _ _ _ hf₀ hf₁, prevOf_linkPrev _ _ _ hg₀ hg₁,
          prevOf_linkPrev _ _ _ ha₀ ha₁, nextOf_linkPrev, prevOf_linkNext]
        exact hl₁.ring.insert hlast hhead hx
      · have hhead' : (A ++ B ++ [pg]).head?.getD (-1) = h₁.buckets (l - 4) := by
          rw [hl₁.head, List.head?_append, hhead]
          rfl
        rw [hhead', EvlHeap.setBucket, Function.update_eq_self]
        rfl
      · intro u hu
        rcases List.mem_cons.mp hu with rfl | hu
        · exact .inr ⟨rfl, hfm, rfl⟩
        · rcases List.mem_cons.mp hu with rfl | hu
          · exact .inr ⟨rfl, ham, rfl⟩
          · rcases List.mem_cons.mp hu with rfl | hu
            · exact .inr ⟨rfl, hfm, rfl⟩
            · exact .inl hu
    refine ⟨_, _, ?_, hr.trans hback fun x hx => hmem hx⟩
    simp only [movePageBack, ok_bind, entry_eq, hpg]
    rw [if_neg hnext]
    simp only [hrun, ok_bind, hb, entry_eq, hfp, e₁, setPrev_eq, hpg₁, hasPage_withPagemap, hap,
      withPagemap_pagemap, e₂, setNext_eq, withPagemap_twice, m₁, m₂, m₃, m₄]
    rfl

/-- The list after `move_page_front`: the old head goes behind all others. -/
def toFront (A : List ℤ) (pg : ℤ) (B : List ℤ) : List ℤ :=
  match A with
  | [] => pg :: B
  | a :: A => pg :: (A ++ B ++ [a])

/-- `move_page_front`. -/
theorem movePageFront_spec (hl : OnList h ext l (A ++ pg :: B)) :
    ∃ h' ext', movePageFront h ext pg l = .ok (h', ext') ∧
      Relinks h ext l (A ++ pg :: B) (toFront A pg B) (A ++ pg :: B) h' ext' := by
  have hb := hl.bucket_eq
  cases A with
  | nil =>
    have hb' : h.buckets (l - 4) = pg := hl.head
    refine ⟨h, ext, ?_, rfl, .refl _ _, hl.ring, ?_, fun u hu => .inl hu⟩
    · simp only [movePageFront, hb, ok_bind, List.nil_append, List.head?_cons, Option.getD_some,
        if_true]
      rfl
    · simp only [toFront, List.head?_cons, Option.getD_some]
      rw [EvlHeap.setBucket, ← hb', Function.update_eq_self]
      rfl
  | cons a A =>
    have hne : ¬ a = pg := by
      rintro rfl
      have := hl.ring.nodup
      simp at this
    obtain ⟨h₁, ext₁, hrun, hr⟩ := removePage_spec hl
    have hl₁ := hr.onList hl fun x hx => hl.pages x (by
      simp only [List.mem_append, List.mem_cons] at hx ⊢
      tauto)
    have hpg₁ : ext₁.HasPage pg := by
      rw [hr.extent]
      exact hl.pages pg (by simp)
    have hx : pg ∉ (a :: A) ++ B := (List.nodup_cons.mp (List.perm_middle.nodup hl.ring.nodup)).1
    obtain ⟨h₂, ext₂, hrun₂, hr₂⟩ := addPageFront_spec hl₁ hpg₁ hx
    have hr₂' : Relinks h₁ ext₁ l (a :: A ++ B) (toFront (a :: A) pg B) (a :: A ++ pg :: B) h₂ ext₂ := by
      refine ⟨hr₂.extent, hr₂.content.mono fun x hx => ?_, hr₂.ring, hr₂.heap, hr₂.uses⟩
      simp only [List.mem_append, List.mem_cons] at hx ⊢
      tauto
    refine ⟨h₂, ext₂, ?_, hr.trans hr₂' fun x hx => ?_⟩
    · simp only [movePageFront, hb, ok_bind, List.cons_append, List.head?_cons, Option.getD_some,
        if_neg hne]
      rw [hrun, ok_bind, hrun₂]
    · simp only [List.mem_append, List.mem_cons] at hx ⊢
      tauto

end Lists

end Libevl.Heap
