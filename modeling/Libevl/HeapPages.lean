import Libevl.HeapRequest

/-!
# Pages that are handed out

Fresh pages come from the end of a free tile, and are marked in the pagemap. In a
bucket page, blocks are taken and released by a change of its map.
-/
namespace Libevl.Heap
open AvlTree Tiling PageRing

section Pagemap

variable {c : Cfg} {h : EvlHeap} {ext : HeapExtent} {pg : ℤ} {n type l : ℕ} {L : List ℤ}

theorem setType_eq (hp : ext.HasPage pg) (type : ℕ) : ext.setType pg type =
    .ok (ext.withPagemap (Function.update ext.pagemap pg ((ext.pagemap pg).setType type))) := by
  simp only [HeapExtent.setType, HeapExtent.modify, entry_eq hp, ok_bind]
  rfl

theorem setMap_eq (hp : ext.HasPage pg) (map : BitVec 32) : ext.setMap pg map =
    .ok (ext.withPagemap (Function.update ext.pagemap pg ((ext.pagemap pg).setMap map))) := by
  simp only [HeapExtent.setMap, HeapExtent.modify, entry_eq hp, ok_bind]
  rfl

/-- The two pagemaps have the same links. -/
structure LinksEq (m m' : ℤ → HeapPgentry) : Prop where
  next : nextOf m' = nextOf m
  prev : prevOf m' = prevOf m

theorem LinksEq.trans {m m' m'' : ℤ → HeapPgentry} (h : LinksEq m m') (h' : LinksEq m' m'') :
    LinksEq m m'' :=
  ⟨h'.next.trans h.next, h'.prev.trans h.prev⟩

theorem linksEq_update {m : ℤ → HeapPgentry} {x : ℤ} {e : HeapPgentry} (hn : e.next = (m x).next)
    (hp : e.prev = (m x).prev) : LinksEq m (Function.update m x e) := by
  constructor <;> ext y <;> by_cases hy : y = x
  · rw [hy, nextOf, Function.update_self, hn, nextOf]
  · rw [nextOf, Function.update_of_ne hy, nextOf]
  · rw [hy, prevOf, Function.update_self, hp, prevOf]
  · rw [prevOf, Function.update_of_ne hy, prevOf]

/-- The types of `n` pages from `pg` on are set. -/
def marked (m : ℤ → HeapPgentry) (pg : ℤ) (n type : ℕ) (q : ℤ) : HeapPgentry :=
  if pg ≤ q ∧ q < pg + n then (m q).setType type else m q

theorem markLoop_eq (hp : ∀ q, pg ≤ q → q < pg + n → ext.HasPage q) :
    markLoop type n ext pg = .ok (ext.withPagemap (marked ext.pagemap pg n type)) := by
  induction n generalizing ext pg with
  | zero =>
    have hm : marked ext.pagemap pg 0 type = ext.pagemap := by
      ext1 q
      rw [marked, if_neg (by omega)]
    rw [hm]
    rfl
  | succ n ih =>
    simp only [markLoop, setType_eq (hp pg le_rfl (by omega)), ok_bind]
    have hrest : ∀ q, pg + 1 ≤ q → q < pg + 1 + n → (ext.withPagemap (Function.update ext.pagemap pg
        ((ext.pagemap pg).setType type))).HasPage q := fun q h₁ h₂ => hp q (by omega) (by omega)
    rw [ih hrest]
    have hm : marked (Function.update ext.pagemap pg ((ext.pagemap pg).setType type)) (pg + 1) n
        type = marked ext.pagemap pg (n + 1) type := by
      ext1 q
      by_cases hq : q = pg
      · rw [hq, marked, marked, if_neg (by omega), if_pos (by omega), Function.update_self]
      · simp only [marked, Function.update_of_ne hq]
        refine if_congr ?_ rfl rfl
        push_cast
        omega
    rw [withPagemap_pagemap, hm, withPagemap_twice]

/-- `mark_pages` keeps the links, and the entries of all other pages. -/
theorem markPages_spec (type : ℕ) (hp : ∀ q, pg ≤ q → q < pg + n → ext.HasPage q) :
    ∃ m, markPages c ext pg n type = .ok (ext.withPagemap m) ∧ LinksEq ext.pagemap m ∧
      (∀ q, (m q).map = (ext.pagemap q).map) ∧
      (∀ q, q < pg ∨ pg + n ≤ q → m q = ext.pagemap q) ∧
      (c.debug = true → ∀ q, pg ≤ q → q < pg + n → (m q).type = type) := by
  cases hd : c.debug with
  | false =>
    refine ⟨ext.pagemap, ?_, ⟨rfl, rfl⟩, fun _ => rfl, fun _ _ => rfl, by simp⟩
    simp only [markPages, hd, Bool.false_eq_true, if_false]
    rfl
  | true =>
    refine ⟨marked ext.pagemap pg n type, ?_, ⟨?_, ?_⟩, fun q => ?_, fun q hq => ?_,
      fun _ q h₁ h₂ => ?_⟩
    · simp only [markPages, hd, if_true, Int.toNat_natCast]
      exact markLoop_eq hp
    · ext1 q
      simp only [nextOf, marked]
      split_ifs <;> rfl
    · ext1 q
      simp only [prevOf, marked]
      split_ifs <;> rfl
    · simp only [marked]
      split_ifs <;> rfl
    · exact if_neg (by omega)
    · rw [marked, if_pos ⟨h₁, h₂⟩]
      rfl

/-- The entries of a block of whole pages. -/
theorem claimPages_multi {p : ℕ} (hn : 0 < n) (hn' : n < 2 ^ 23)
    (hp : ∀ q : ℤ, p ≤ q → q < p + n → ext.HasPage q) (hc : c.int ((p : ℤ) * 512) = (p : ℤ) * 512) :
    ∃ m, claimPages c h ext p (512 * n) 0 = .ok (h, ext.withPagemap m) ∧
      LinksEq ext.pagemap m ∧ (∀ q : ℤ, q < p ∨ p + n ≤ q → m q = ext.pagemap q) ∧
      Described c m (p, .multi n) := by
  have hpg := hp p le_rfl (by omega)
  let m₁ := Function.update ext.pagemap (p : ℤ) ((ext.pagemap p).setType pageList)
  let m₂ := Function.update m₁ (p : ℤ) ((m₁ p).setMap (BitVec.ofNat 32 (512 * n)))
  have hcount : c.int ((512 * n / 512 : ℕ) - 1) = ((n - 1 : ℕ) : ℤ) := by
    rw [int_of_lt (by omega) (by omega)]
    omega
  have hrest : ∀ q : ℤ, (p : ℤ) + 1 ≤ q → q < (p : ℤ) + 1 + (n - 1 : ℕ) →
      (ext.withPagemap m₂).HasPage q := fun q h₁ h₂ => hp q (by omega) (by omega)
  obtain ⟨m, hrun, hlinks, hmap, hout, hcont⟩ := markPages_spec (c := c) pageCont hrest
  have hself : m p = m₂ p := hout p (by omega)
  refine ⟨m, ?_, ?_, fun q hq => ?_, ?_, ?_, fun hd q h₁ h₂ => hcont hd q (by omega) (by omega), hc⟩
  · simp only [claimPages, ne_eq, not_true_eq_false, if_false, setType_eq hpg, ok_bind,
      setMap_eq, hasPage_withPagemap, hpg, withPagemap_pagemap, withPagemap_twice, hcount]
    simp only [withPagemap_twice] at hrun
    rw [hrun]
    rfl
  · have h₁ : LinksEq ext.pagemap m₁ := linksEq_update rfl rfl
    have h₂ : LinksEq m₁ m₂ := linksEq_update rfl rfl
    exact (h₁.trans h₂).trans hlinks
  · have hne : q ≠ p := by omega
    rw [hout q (by omega)]
    simp only [withPagemap_pagemap, m₂, m₁, Function.update_of_ne hne]
  · simp [hself, m₂, m₁, HeapPgentry.setMap, HeapPgentry.setType]
  · simp [hself, m₂, HeapPgentry.setMap]

/-- The list of the new page, whose entry is set up first. -/
theorem claimPages_bucket (hl : OnList h ext l L) (hb : Bucketed l) (hp : ext.HasPage pg)
    (hx : pg ∉ L) (bsize : ℕ) :
    ∃ h' ext' m, claimPages c h ext pg bsize l = .ok (h', ext') ∧ LinksEq ext.pagemap m ∧
      (∀ q, q ≠ pg → m q = ext.pagemap q) ∧ (m pg).type = l ∧
      (m pg).map = ~~~ genBlockMask l ||| 1#32 ∧
      Relinks h (ext.withPagemap m) l L (pg :: (L.tail ++ L.head?.toList)) (pg :: L) h' ext' := by
  have hne : l ≠ 0 := by
    have := hb.1
    omega
  let m₁ := Function.update ext.pagemap pg ((ext.pagemap pg).setType l)
  let m₂ := Function.update m₁ pg ((m₁ pg).setMap (~~~ genBlockMask l ||| 1#32))
  have h₁ : LinksEq ext.pagemap m₁ := linksEq_update rfl rfl
  have h₂ : LinksEq m₁ m₂ := linksEq_update rfl rfl
  have hlinks := h₁.trans h₂
  have hl' : OnList h (ext.withPagemap m₂) l L := by
    refine ⟨hl.index, hl.head, ?_, hl.pages, hl.bound⟩
    simp only [withPagemap_pagemap, hlinks.next, hlinks.prev]
    exact hl.ring
  obtain ⟨h', ext', hrun, hr⟩ := addPageFront_spec hl' hp hx
  refine ⟨h', ext', m₂, ?_, hlinks, fun q hq => ?_, ?_, ?_, hr⟩
  · simp only [claimPages, ne_eq, hne, not_false_eq_true, if_true, setType_eq hp, ok_bind, setMap_eq,
      hasPage_withPagemap, hp, withPagemap_pagemap, withPagemap_twice]
    exact hrun
  · simp only [m₂, m₁, Function.update_of_ne hq]
  · simp [m₂, m₁, HeapPgentry.setMap, HeapPgentry.setType]
  · simp [m₂, HeapPgentry.setMap]

end Pagemap

section Carve

variable {c : Cfg} {ext ext₁ ext₂ : HeapExtent} {A B : List Seg} {n k : ℕ} {s : Seg}

theorem Ranges.withPagemap {fs : List (ℤ × ℕ)} (h : Ranges ext fs) (m : ℤ → HeapPgentry) :
    Ranges (ext.withPagemap m) fs :=
  ⟨h.addr, h.size, h.sizes, h.apart, h.pos⟩

/-- A tile in use is no free range. -/
def Seg.Used : Seg → Prop
  | free _ => False
  | multi _ => True
  | bucket _ _ => True

theorem Seg.Used.frees {base : ℤ} {p : ℕ} (h : s.Used) :
    frees base p (s :: B) = frees base (p + s.pages) B := by
  cases s with
  | free n => exact absurd h id
  | multi n => rfl
  | bucket l map => rfl

/-- The tiles after `k` pages were taken off the end of a free one. -/
def carved (A : List Seg) (n k : ℕ) (s : Seg) (B : List Seg) : List Seg :=
  A ++ (remain n k ++ [s]) ++ B

/-- The first of the pages taken off a free tile. -/
def carvedPage (A : List Seg) (n k : ℕ) : ℕ := cover Seg.pages A + (n - k)

theorem Holds.carve (h : Holds c ext (A ++ .free n :: B)) (hkn : k ≤ n) (hplace : SamePlace ext ext₂)
    (hr : Ranges ext₂ (frees ext.membase 0 (A ++ remain n k) ++
      frees ext.membase (cover Seg.pages A + n) B))
    (hs : s.pages = k) (hv : s.Valid) (hu : s.Used)
    (hmap : ∀ q : ℕ, q < carvedPage A n k ∨ carvedPage A n k + k ≤ q →
      (ext₂.pagemap q).type = (ext.pagemap q).type ∧ (ext₂.pagemap q).map = (ext.pagemap q).map)
    (hd : Described c ext₂.pagemap (carvedPage A n k, s)) : Holds c ext₂ (carved A n k s B) := by
  have h' : Holds c ext (A ++ [.free n] ++ B) := by simpa using h
  have hend : carvedPage A n k + k = cover Seg.pages A + n := by
    rw [carvedPage]
    omega
  refine h'.replace hplace ?_ ?_ ?_ (fun q hq => hmap q ?_) ?_
  · simp only [cover_append, cover_remain, cover_cons, cover_nil, hs]
    change n - k + (k + 0) = n + 0
    omega
  · intro t ht
    rcases List.mem_append.mp ht with ht | ht
    · exact remain_valid hkn t ht
    · exact List.mem_singleton.mp ht ▸ hv
  · have hfrees : frees ext.membase 0 (A ++ (remain n k ++ [s]) ++ B) =
        frees ext.membase 0 (A ++ remain n k) ++ frees ext.membase (cover Seg.pages A + n) B := by
      have hpos : 0 + cover Seg.pages A + cover Seg.pages (remain n k) + s.pages =
          cover Seg.pages A + n := by
        rw [cover_remain, hs]
        omega
      rw [← List.append_assoc, List.append_assoc (A ++ remain n k), List.singleton_append,
        frees_append, hu.frees, cover_append, ← hpos, ← Nat.add_assoc 0]
    rw [hfrees]
    exact hr
  · have hn : cover Seg.pages [.free n] = n := Nat.add_zero n
    rw [hn] at hq
    rw [hend, carvedPage]
    omega
  · intro x hx
    rw [place_append, List.mem_append, cover_remain] at hx
    rcases hx with hx | hx
    · have hold := h'.described (cover Seg.pages A, .free n) (by simp)
      unfold remain at hx
      split_ifs at hx with hnk
      · simp at hx
      · obtain rfl := List.mem_singleton.mp hx
        intro hdebug q h₁ h₂
        rw [(hmap q (.inl (by rw [carvedPage]; omega))).1]
        exact hold hdebug q h₁ (by omega)
    · obtain rfl := List.mem_singleton.mp hx
      exact hd

/-- The new tile brings its blocks. -/
theorem blocksOf_carved (base : ℤ) (hkn : k ≤ n) (hs : s.pages = k) :
    (blocksOf base 0 (carved A n k s B)).Perm
      (s.blocks (base + 512 * (carvedPage A n k : ℤ)) ++ blocksOf base 0 (A ++ .free n :: B)) := by
  have hremain : blocksOf base (cover Seg.pages A) (remain n k) = [] := by
    unfold remain
    split_ifs <;> rfl
  have hpos : cover Seg.pages A + (n - k) + s.pages = cover Seg.pages A + n := by omega
  have hfree : blocksOf base (cover Seg.pages A) (.free n :: B) =
      blocksOf base (cover Seg.pages A + n) B := rfl
  have hone (p : ℕ) : blocksOf base p [s] = s.blocks (base + 512 * (p : ℤ)) := by
    rw [blocksOf_cons, blocksOf_nil, List.append_nil]
  simp only [carved, blocksOf_append, Nat.zero_add, hremain, cover_remain, hone, cover_cons,
    cover_nil, Nat.add_zero, List.nil_append, hpos, hfree, carvedPage,
    List.append_assoc]
  exact List.perm_append_comm_assoc ..

variable {q : ℕ} {u : Seg}

theorem mem_place_middle {p : ℕ} : (q, u) ∈ place Seg.pages p (A ++ s :: B) ↔
    (q, u) ∈ place Seg.pages p A ∨ (q, u) = (p + cover Seg.pages A, s) ∨
      (q, u) ∈ place Seg.pages (p + cover Seg.pages A + s.pages) B := by
  rw [place_append, List.mem_append, place_cons, List.mem_cons]

theorem pages_free : Seg.pages (.free n) = n := rfl

theorem Seg.Used.bucket (l : ℕ) (map : BitVec 32) : Seg.Used (.bucket l map) := trivial

theorem not_used_free {p : ℕ} (hu : u.Used) : (q, u) ≠ (p, .free n) := by
  rintro ⟨-, rfl⟩
  exact hu

theorem not_mem_place_remain {p : ℕ} (hu : u.Used) :
    (q, u) ∉ place Seg.pages p (remain n k) := by
  unfold remain
  split_ifs
  · exact List.not_mem_nil
  · intro hmem
    exact not_used_free hu (List.mem_singleton.mp hmem)

/-- The tiles in use after pages were taken. -/
theorem mem_carved (hkn : k ≤ n) (hs : s.pages = k) (hu : u.Used) :
    (q, u) ∈ place Seg.pages 0 (carved A n k s B) ↔
      (q, u) ∈ place Seg.pages 0 (A ++ .free n :: B) ∨ (q, u) = (carvedPage A n k, s) := by
  have hpos : cover Seg.pages A + (n - k) + s.pages = cover Seg.pages A + n := by omega
  have hcarved : carved A n k s B = (A ++ remain n k) ++ s :: B := by simp [carved]
  rw [hcarved, mem_place_middle, mem_place_middle, place_append, List.mem_append, cover_append,
    cover_remain, carvedPage]
  simp only [Nat.zero_add, hpos, pages_free, not_mem_place_remain hu, not_used_free hu, or_false,
    false_or]
  tauto

/-- Bucket pages are counted off the tiles. -/
theorem isBucket_of_mem {P Q : List (ℕ × Seg)} {x : ℕ × Seg} {l : ℕ} {y : ℤ}
    (h : ∀ q map, (q, Seg.bucket l map) ∈ P ↔
      (q, Seg.bucket l map) ∈ Q ∨ (q, Seg.bucket l map) = x) :
    IsBucket P l y ↔ IsBucket Q l y ∨ IsBucket [x] l y := by
  simp only [IsBucket, h, List.mem_singleton, or_and_right, exists_or]

/-- The bucket pages are the old ones, and the new one if it is a bucket page. -/
theorem pages_carved {i : ℕ} {y : ℤ} (hkn : k ≤ n) (hs : s.pages = k) :
    Pages (carved A n k s B) i y ↔
      Pages (A ++ .free n :: B) i y ∨ IsBucket [(carvedPage A n k, s)] (i + 4) y :=
  isBucket_of_mem fun _ _ => mem_carved hkn hs (.bucket ..)

end Carve

section Remap

variable {c : Cfg} {ext : HeapExtent} {A B : List Seg} {l b : ℕ} {map map' : BitVec 32}
  {m : ℤ → HeapPgentry}

/-- A bucket page with another map. -/
theorem Holds.remap (h : Holds c ext (A ++ .bucket l map :: B)) (hv : Seg.Valid (.bucket l map'))
    (ht : ∀ q, (m q).type = (ext.pagemap q).type)
    (hm : ∀ q, q ≠ (cover Seg.pages A : ℤ) → (m q).map = (ext.pagemap q).map)
    (hself : (m (cover Seg.pages A : ℤ)).map = map') :
    Holds c (ext.withPagemap m) (A ++ .bucket l map' :: B) := by
  have h' : Holds c ext (A ++ [.bucket l map] ++ B) := by simpa using h
  obtain ⟨h₁, -, h₃⟩ := h'.described (cover Seg.pages A, .bucket l map) (by simp)
  have hnew : Holds c (ext.withPagemap m) (A ++ [.bucket l map'] ++ B) := by
    refine h'.replace samePlace_withPagemap rfl ?_ ?_ ?_ ?_
    · intro s hs
      exact List.mem_singleton.mp hs ▸ hv
    · have hranges := h'.ranges.withPagemap m
      simp only [frees_append, frees_bucket, cover_append] at hranges ⊢
      exact hranges
    · intro q hq
      have hone : cover Seg.pages [.bucket l map] = 1 := rfl
      rw [hone] at hq
      exact ⟨ht q, hm q (by omega)⟩
    · intro x hx
      obtain rfl := List.mem_singleton.mp hx
      exact ⟨(ht _).trans h₁, hself, h₃⟩
  simpa using hnew

/-- A bucket page gets another map, and then its list is relinked. -/
theorem Relinks.remap {h h' : EvlHeap} {ext' : HeapExtent} {L L' S : List ℤ}
    (hr : Relinks h (ext.withPagemap m) l L L' S h' ext')
    (hold : Holds c ext (A ++ .bucket l map :: B)) (hv : Seg.Valid (.bucket l map'))
    (hout : ∀ q, q ≠ (cover Seg.pages A : ℤ) → m q = ext.pagemap q)
    (hself : m (cover Seg.pages A : ℤ) = (ext.pagemap (cover Seg.pages A : ℤ)).setMap map')
    (hx : (cover Seg.pages A : ℤ) ∈ S) :
    SamePlace ext ext' ∧ Holds c ext' (A ++ .bucket l map' :: B) ∧
      ∀ y ∉ S, SameLinks ext ext' y := by
  have hcontent := hr.content
  rw [withPagemap_pagemap] at hcontent
  have hext : ext' = ext.withPagemap ext'.pagemap := hr.extent
  have htypes (q : ℤ) : (ext'.pagemap q).type = (ext.pagemap q).type := by
    rw [hcontent.type]
    by_cases hq : q = (cover Seg.pages A : ℤ)
    · rw [hq, hself]
      rfl
    · rw [hout q hq]
  refine ⟨?_, ?_, fun y hy => ?_⟩
  · rw [hext]
    exact samePlace_withPagemap
  · rw [hext]
    refine hold.remap hv htypes (fun q hq => ?_) ?_
    · rw [hcontent.map, hout q hq]
    · rw [hcontent.map, hself]
      rfl
  · have hne : y ≠ (cover Seg.pages A : ℤ) := fun heq => hy (heq ▸ hx)
    rw [SameLinks, nextOf, prevOf, hcontent.frame y hy, hout y hne]
    exact ⟨rfl, rfl⟩

/-- A slot more in use is a block more. -/
theorem blocksOf_remap (base : ℤ) (hp : (busy l map').Perm (b :: busy l map)) :
    (blocksOf base 0 (A ++ .bucket l map' :: B)).Perm
      ((base + 512 * (cover Seg.pages A : ℤ) + (b * 2 ^ l : ℕ), 2 ^ l) ::
        blocksOf base 0 (A ++ .bucket l map :: B)) := by
  simp only [blocksOf_append, blocksOf_cons, Nat.zero_add, Seg.blocks]
  have hmap := hp.map fun k => (base + 512 * (cover Seg.pages A : ℤ) + (k * 2 ^ l : ℕ), 2 ^ l)
  exact ((hmap.append_right _).append_left _).trans List.perm_middle

theorem pages_remap {i : ℕ} {y : ℤ} :
    Pages (A ++ .bucket l map' :: B) i y ↔ Pages (A ++ .bucket l map :: B) i y := by
  simp only [Pages, place_append, place_cons, isBucket_append, isBucket_bucket]
  rfl

end Remap

end Libevl.Heap
