import Libevl.HeapPages

/-!
# Allocation

A bucketed request takes a slot of the page at the head of its list, or a fresh
page when that one is full. Larger requests take whole pages. What happens is
determined by the layouts and the rings alone.
-/
namespace Libevl.Heap
open AvlTree Tiling PageRing

/-- The layout has no free tile of `k` pages. -/
def NoRoom (k : ℕ) (segs : List Seg) : Prop := ∀ n, .free n ∈ segs → n < k

/-- The page `y` has blocks of `2 ^ l` bytes, not all of them in use. -/
def Room (segs : List Seg) (l : ℕ) (y : ℤ) : Prop :=
  ∃ p map, (p, Seg.bucket l map) ∈ place Seg.pages 0 segs ∧ y = (p : ℕ) ∧ map ≠ BitVec.allOnes 32

/-- The page at the head of a ring has a free block. -/
def Abs.HeadRoom (abs : Abs) (l : ℕ) : Prop :=
  ∃ y R x, abs.ring (l - 4) = y :: R ∧ abs.pairs[abs.home (l - 4)]? = some x ∧ Room x.2 l y

/-- A page looked up by an operation is a bucket page. -/
def Abs.Names (abs : Abs) (u : Use) : Prop :=
  Bucketed u.log2size ∧ ∃ x ∈ abs.pairs, x.1.mem = u.ext ∧
    IsBucket (place Seg.pages 0 x.2) u.log2size u.page

/-- The pages that are found lie where `pagenr_to_addr` does not overflow. -/
def Shiftable (c : Cfg) (h : EvlHeap) (n : ℕ) : Prop :=
  ∀ pre ext post a, h.extents = pre ++ ext :: post →
    (∀ e ∈ pre, findSuitableRange e n = .ok none) → findSuitableRange ext n = .ok (some a) →
    c.int (a + (ext.size a - n : ℕ) - ext.membase) = a + (ext.size a - n : ℕ) - ext.membase

/-- The free tile whose last `k` pages are taken. -/
structure Found (c : Cfg) (abs : Abs) (k j : ℕ) (ext : HeapExtent) (A : List Seg) (n : ℕ)
    (B : List Seg) : Prop where
  place : abs.pairs[j]? = some (ext, A ++ .free n :: B)
  fits : k ≤ n
  first : ∀ i < j, ∀ x, abs.pairs[i]? = some x → NoRoom k x.2
  best : ∀ m, .free m ∈ A ++ .free n :: B → k ≤ m → n ≤ m
  shift : c.int ((carvedPage A n k : ℤ) * 512) = (carvedPage A n k : ℤ) * 512

section Pages

variable {c : Cfg} {h : EvlHeap} {abs : Abs} {k l bsize : ℕ}

theorem exists_first_room (k : ℕ) (pairs : List (HeapExtent × List Seg)) :
    (∀ x ∈ pairs, NoRoom k x.2) ∨ ∃ pre x post, pairs = pre ++ x :: post ∧
      (∀ y ∈ pre, NoRoom k y.2) ∧ ¬ NoRoom k x.2 := by
  induction pairs with
  | nil => exact .inl (by simp)
  | cons x pairs ih =>
    by_cases hx : NoRoom k x.2
    · rcases ih with hall | ⟨pre, y, post, rfl, hpre, hy⟩
      · exact .inl (List.forall_mem_cons.mpr ⟨hx, hall⟩)
      · exact .inr ⟨x :: pre, y, post, rfl, List.forall_mem_cons.mpr ⟨hx, hpre⟩, hy⟩
    · exact .inr ⟨[], x, pairs, rfl, by simp, hx⟩

theorem Holds.reserve_noRoom {ext : HeapExtent} {segs : List Seg} (hold : Holds c ext segs)
    (hk : 0 < k) (hk' : 512 * k < 2 ^ 64) (hfit : ext.Fits (512 * k)) (hno : NoRoom k segs) :
    findSuitableRange ext (512 * k) = .ok none := by
  rcases hold.reserve hk hk' hfit with ⟨-, hfind⟩ | ⟨A, n, B, -, rfl, hkn, -⟩
  · exact hfind
  · have := hno n (by simp)
    omega

/-- No extent has the pages. -/
theorem addFreeRange_none (hi : HeapInv c h abs) (hk : 0 < k) (hk' : 512 * k < 2 ^ 64)
    (hfit : ∀ ext ∈ h.extents, ext.Fits (512 * k)) (ha : alignTo bsize 512 = 512 * k)
    (hno : ∀ x ∈ abs.pairs, NoRoom k x.2) : addFreeRange c h bsize l = .ok (h, none) := by
  have hpre : ∀ e ∈ h.extents, reservePageRange c e (512 * k) = .ok (e, -1) := by
    intro e he
    have hmem := he
    rw [hi.extents] at hmem
    obtain ⟨x, hx, rfl⟩ := List.mem_map.mp hmem
    exact reservePageRange_none ((hi.holds x hx).reserve_noRoom hk hk' (hfit _ he) (hno x hx))
  simp only [addFreeRange, ha, reserveScan_none hpre, ok_bind]
  rfl

/-- The first extent that has the pages. -/
theorem addFreeRange_some (hi : HeapInv c h abs) (hk : 0 < k) (hk' : 512 * k < 2 ^ 64)
    (hfit : ∀ ext ∈ h.extents, ext.Fits (512 * k)) (ha : alignTo bsize 512 = 512 * k)
    (hshift : Shiftable c h (512 * k)) (hroom : ¬ ∀ x ∈ abs.pairs, NoRoom k x.2) :
    ∃ j ext A n B ext', Found c abs k j ext A n B ∧ SamePages ext ext' ∧
      Ranges ext' (frees ext.membase 0 (A ++ remain n k) ++
        frees ext.membase (cover Seg.pages A + n) B) ∧
      ∀ h' ext'', claimPages c (h.setExtent j ext') ext' (carvedPage A n k : ℕ) bsize l =
          .ok (h', ext'') →
        addFreeRange c h bsize l = .ok ((h'.setExtent j ext'').withUsed
          (sizeAdd h'.usedSize bsize), some (pagenrToAddr c ext'' (carvedPage A n k : ℕ))) := by
  rcases exists_first_room k abs.pairs with hall | ⟨pre, ⟨ext, segs⟩, post, hpairs, hpre, hx⟩
  · exact absurd hall hroom
  have hexts : h.extents = pre.map Prod.fst ++ ext :: post.map Prod.fst := by
    rw [hi.extents, hpairs, List.map_append, List.map_cons]
  have hno : ∀ e ∈ pre.map Prod.fst, findSuitableRange e (512 * k) = .ok none := by
    intro e he
    obtain ⟨x, hx, rfl⟩ := List.mem_map.mp he
    exact (hi.holds x (by simp [hpairs, hx])).reserve_noRoom hk hk'
      (hfit _ (by rw [hexts]; exact List.mem_append_left _ he)) (hpre x hx)
  have hold := hi.holds (ext, segs) (by simp [hpairs])
  rcases hold.reserve hk hk' (hfit ext (by simp [hexts])) with ⟨hno', -⟩ | hfound
  · exact absurd hno' hx
  obtain ⟨A, n, B, ext', rfl, hkn, hbest, ⟨a, hfind, haddr⟩, hrun, hsame, hranges⟩ := hfound
  refine ⟨pre.length, ext, A, n, B, ext', ⟨by simp [hpairs], hkn, fun i hi x hxi => ?_, hbest, ?_⟩,
    hsame, hranges, fun h' ext'' hclaim => ?_⟩
  · rw [hpairs, List.getElem?_append_left hi] at hxi
    exact hpre x (List.mem_of_getElem? hxi)
  · have := hshift _ _ _ a hexts hno hfind
    rw [haddr] at this
    exact this
  · have hscan := reserveScan_some (post.map Prod.fst)
      (fun e he => reservePageRange_none (c := c) (hno e he)) hrun (Int.natCast_nonneg _)
    rw [← hexts, List.length_map] at hscan
    have hset : h.extents.set pre.length ext' = pre.map Prod.fst ++ ext' :: post.map Prod.fst := by
      have hlen : pre.length = (pre.map Prod.fst).length := by rw [List.length_map]
      rw [hexts, hlen]
      simp
    simp only [EvlHeap.setExtent, hset] at hclaim
    simp only [addFreeRange, ha, hscan, ok_bind]
    have hget : (pre.map Prod.fst ++ ext' :: post.map Prod.fst)[pre.length]? = some ext' := by
      simp
    simp only [hget]
    change (claimPages c { h with extents := _ } _ _ _ _ >>= _) = _
    rw [carvedPage] at hclaim
    rw [hclaim]
    rfl

end Pages

/-- The list with a fresh page in front. -/
def withFresh (pg : ℤ) (L : List ℤ) : List ℤ := pg :: (L.tail ++ L.head?.toList)

theorem mem_withFresh {pg y : ℤ} {L : List ℤ} : y ∈ withFresh pg L ↔ y = pg ∨ y ∈ L := by
  cases L with
  | nil => simp [withFresh]
  | cons a L => simp [withFresh, or_comm]

/-- The list after a block was taken of the page at its head. -/
def rotateFull (L : List ℤ) (map : BitVec 32) : List ℤ :=
  if map = BitVec.allOnes 32 then L.tail ++ L.head?.toList else L

theorem mem_rotateFull {y : ℤ} {L : List ℤ} {map : BitVec 32} : y ∈ rotateFull L map ↔ y ∈ L := by
  unfold rotateFull
  split_ifs
  · cases L with
    | nil => simp
    | cons a L => simp [or_comm]
  · rfl

section Blocks

variable {c : Cfg} {h : EvlHeap} {abs : Abs} {k l j n : ℕ} {ext ext₁ : HeapExtent} {A B : List Seg}

/-- The pages of a ring are bucket pages. -/
theorem HeapInv.names {segs : List Seg} {u : Use} (hi : HeapInv c h abs)
    (hj : abs.pairs[j]? = some (ext, segs)) (hb : Bucketed l)
    (hhome : abs.ring (l - 4) ≠ [] → abs.home (l - 4) = j) (h₁ : u.ext = ext.mem)
    (h₂ : u.page ∈ abs.ring (l - 4)) (h₃ : u.log2size = l) : abs.Names u := by
  have hpage := (hi.mem_ring hj hb hhome).mpr h₂
  rw [Pages, hb.index.2] at hpage
  exact ⟨h₃ ▸ hb, _, List.mem_of_getElem? hj, h₁.symm, h₃ ▸ hpage⟩

/-- What an allocation returns and what becomes of the heap. -/
structure Hands (h : EvlHeap) (abs : Abs) (bsize : ℕ) (h' : EvlHeap) (r : Option ℤ) (abs' : Abs) :
    Prop where
  blocks : abs'.blocks.Perm ((r.map fun a => (a, bsize)).toList ++ abs.blocks)
  used : h'.usedSize = r.elim h.usedSize fun _ => sizeAdd h.usedSize bsize
  uses : ∀ u ∈ h'.uses, u ∈ h.uses ∨ abs.Names u

/-- A block of whole pages. -/
theorem addFreeRange_multi (hi : HeapInv c h abs) (hk : 0 < k) (hk' : 512 * k + 511 < 2 ^ 64)
    (hfit : ∀ ext ∈ h.extents, ext.Fits (512 * k)) (hshift : Shiftable c h (512 * k))
    (hroom : ¬ ∀ x ∈ abs.pairs, NoRoom k x.2) :
    ∃ j ext A n B ext' h' r, Found c abs k j ext A n B ∧
      addFreeRange c h (512 * k) 0 = .ok (h', some r) ∧
      r = ext.membase + carvedPage A n k * 512 ∧
      HeapInv c h' (abs.set j ext' (carved A n k (.multi k) B)) ∧
      Hands h abs (512 * k) h' (some r) (abs.set j ext' (carved A n k (.multi k) B)) := by
  obtain ⟨j, ext, A, n, B, ext₁, hf, hsame, hranges, hrun⟩ := addFreeRange_some (l := 0) hi hk
    (by omega) hfit (alignTo_pages hk') hshift hroom
  have hold := hi.holds _ (List.mem_of_getElem? hf.place)
  have hplace := hsame.samePlace
  have htotal := hold.total
  have hbound := hold.bound
  have hcover : cover Seg.pages (A ++ .free n :: B) = cover Seg.pages A + (n + cover Seg.pages B) := by
    rw [cover_append, cover_cons]
    rfl
  have hkn := hf.fits
  simp only [hcover] at htotal hbound
  have hpages : ∀ q : ℤ, (carvedPage A n k : ℕ) ≤ q → q < (carvedPage A n k : ℕ) + k →
      ext₁.HasPage q := by
    intro q h₁ h₂
    rw [carvedPage] at h₁ h₂
    rw [HeapExtent.HasPage, hplace.nrpages, htotal]
    omega
  obtain ⟨m, hclaim, hlinks, hout, hdesc⟩ := claimPages_multi (c := c) (h := h.setExtent j ext₁) hk
    (by omega) hpages hf.shift
  rw [hsame.pagemap] at hlinks hout
  refine ⟨j, ext, A, n, B, ext₁.withPagemap m, _, _, hf, hrun _ _ hclaim, ?_, ?_, ?_, rfl,
    fun u hu => .inl hu⟩
  · rw [pagenrToAddr, hf.shift]
    exact congrArg (· + _) hplace.membase
  · have hold' : Holds c (ext₁.withPagemap m) (carved A n k (.multi k) B) := by
      refine hold.carve hkn (hplace.trans samePlace_withPagemap) (hranges.withPagemap m) rfl hk
        trivial (fun q hq => ?_) hdesc
      rw [withPagemap_pagemap, hout q (by omega)]
      exact ⟨rfl, rfl⟩
    let h₁ := ((h.setExtent j ext₁).setExtent j (ext₁.withPagemap m)).withUsed
      (sizeAdd (h.setExtent j ext₁).usedSize (512 * k))
    have hext : h₁.extents = h.extents.set j (ext₁.withPagemap m) := List.set_set ..
    have husable : h₁.usableSize = h.usableSize := rfl
    have hbuckets : h₁.buckets = h.buckets := rfl
    refine hi.update hf.place (hplace.trans samePlace_withPagemap) hold' hext husable
      (hi.rings.keep hf.place hbuckets (fun i _ y => ?_) fun i _ y _ => ?_)
    · rw [pages_carved hkn rfl]
      simp
    · exact ⟨congrFun hlinks.next y, congrFun hlinks.prev y⟩
  · refine Abs.blocks_set hf.place ?_
    rw [show (ext₁.withPagemap m).membase = ext.membase from hplace.membase, pagenrToAddr, hf.shift,
      show (ext₁.withPagemap m).membase = ext.membase from hplace.membase]
    have := blocksOf_carved (A := A) (B := B) (s := .multi k) ext.membase hkn rfl
    rw [Seg.blocks, mul_comm (512 : ℤ)] at this
    exact this

/-- The tile of a fresh bucket page. -/
abbrev freshPage (l : ℕ) : Seg := .bucket l (~~~ genBlockMask l ||| 1#32)

theorem freshPage_valid (hb : Bucketed l) : (freshPage l).Valid :=
  ⟨hb, padded_fresh hb, by simp [busy_fresh hb]⟩

/-- No bucket page lies in a free tile. -/
theorem not_pages_free {p q i : ℕ} (hq₀ : cover Seg.pages A ≤ q) (hq₁ : q < cover Seg.pages A + n)
    (hp : (p : ℤ) = q) : ¬ Pages (A ++ .free n :: B) i p := by
  rintro ⟨p', m, hmem, heq⟩
  have hfree : (cover Seg.pages A, Seg.free n) ∈ place Seg.pages 0 (A ++ .free n :: B) := by simp
  rcases place_apart hmem hfree with hsame | hlt | hlt
  · cases hsame
  all_goals
    simp only [Seg.pages] at hlt
    omega

/-- A fresh page of a bucketed size. -/
theorem addFreeRange_page (hi : HeapInv c h abs) (hb : Bucketed l) (hshift : Shiftable c h 512)
    (hhome : ∀ j ext A n B, Found c abs 1 j ext A n B →
      abs.ring (l - 4) ≠ [] → abs.home (l - 4) = j)
    (hroom : ¬ ∀ x ∈ abs.pairs, NoRoom 1 x.2) :
    ∃ j ext A n B ext' h' r abs', Found c abs 1 j ext A n B ∧
      addFreeRange c h (2 ^ l) l = .ok (h', some r) ∧
      r = ext.membase + carvedPage A n 1 * 512 ∧
      abs' = (abs.set j ext' (carved A n 1 (freshPage l) B)).relink (l - 4) j
        (withFresh (carvedPage A n 1 : ℕ) (abs.ring (l - 4))) ∧
      HeapInv c h' abs' ∧ Hands h abs (2 ^ l) h' (some r) abs' := by
  obtain ⟨j, ext, A, n, B, ext₁, hf, hsame, hranges, hrun⟩ := addFreeRange_some (k := 1)
    (l := l) hi one_pos (by decide) (fun e _ => HeapExtent.fits_of_lt (by decide))
    (alignTo_bucket hb) hshift hroom
  have hold := hi.holds _ (List.mem_of_getElem? hf.place)
  have hplace := hsame.samePlace
  have hkn := hf.fits
  have hring := hhome j ext A n B hf
  have hl := hi.onList hf.place hb hring
  have hfree : (cover Seg.pages A, Seg.free n) ∈ place Seg.pages 0 (A ++ .free n :: B) := by simp
  have hnot (i : ℕ) : ¬ Pages (A ++ .free n :: B) i (carvedPage A n 1 : ℕ) :=
    not_pages_free (q := carvedPage A n 1) (by rw [carvedPage]; omega) (by rw [carvedPage]; omega) rfl
  have hx : ((carvedPage A n 1 : ℕ) : ℤ) ∉ abs.ring (l - 4) := fun hx =>
    hnot _ ((hi.mem_ring hf.place hb hring).mpr hx)
  have hpg : ext₁.HasPage (carvedPage A n 1 : ℕ) := by
    have hbounds := place_bounds hfree
    have htotal := hold.total
    simp only [Seg.pages] at hbounds htotal
    rw [carvedPage]
    constructor
    · omega
    · rw [hplace.nrpages, htotal]
      omega
  have hl₁ : OnList (h.setExtent j ext₁) ext₁ l (abs.ring (l - 4)) := by
    refine ⟨hl.index, hl.head, ?_, fun y hy => ?_, ?_⟩
    · rw [hsame.pagemap]
      exact hl.ring
    · rw [HeapExtent.HasPage, hplace.nrpages]
      exact hl.pages y hy
    · rw [hplace.nrpages]
      exact hl.bound
  obtain ⟨h₂, ext₂, m, hclaim, hlinks, hout, htype, hmap, hr⟩ := claimPages_bucket (c := c) hl₁ hb hpg
    hx (2 ^ l)
  rw [hsame.pagemap] at hlinks hout
  have hplace₂ : SamePlace ext ext₂ := by
    rw [hr.extent]
    exact (hplace.trans samePlace_withPagemap).trans samePlace_withPagemap
  have hcontent := hr.content
  rw [withPagemap_pagemap] at hcontent
  refine ⟨j, ext, A, n, B, ext₂, _, _, _, hf, hrun _ _ hclaim, ?_, rfl, ?_, ?_, ?_, ?_⟩
  · rw [pagenrToAddr, hf.shift, hplace₂.membase]
  · have hold' : Holds c ext₂ (carved A n 1 (freshPage l) B) := by
      refine hold.carve hkn hplace₂ ?_ rfl (freshPage_valid hb) trivial (fun q hq => ?_) ?_
      · rw [hr.extent]
        exact (hranges.withPagemap m).withPagemap _
      · have hne : (q : ℤ) ≠ (carvedPage A n 1 : ℕ) := by omega
        rw [hcontent.type, hcontent.map, hout q hne]
        exact ⟨rfl, rfl⟩
      · exact ⟨(hcontent.type _).trans htype, (hcontent.map _).trans hmap, hf.shift⟩
    let h₃ := (h₂.setExtent j ext₂).withUsed (sizeAdd h₂.usedSize (2 ^ l))
    have hext : h₃.extents = h.extents.set j ext₂ :=
      (congrArg (List.set · j ext₂) hr.extents).trans (List.set_set ..)
    have husable : h₃.usableSize = h.usableSize := hr.usableSize
    have hbuckets : h₃.buckets = Function.update h.buckets (l - 4)
        ((withFresh (carvedPage A n 1 : ℕ) (abs.ring (l - 4))).head?.getD (-1)) := hr.buckets
    refine hi.relinked (S := ((carvedPage A n 1 : ℕ) : ℤ) :: abs.ring (l - 4)) hf.place hb hring
      hplace₂ hold' hext husable hbuckets hr.ring (fun y hy => ?_) (fun y hy => ?_) (fun y => ?_)
      fun i _ hil y => ?_
    · have hne := List.ne_of_not_mem_cons hy
      rw [SameLinks, nextOf, prevOf, hcontent.frame y hy, hout y hne]
      exact ⟨rfl, rfl⟩
    · rcases List.mem_cons.mp hy with rfl | hy
      · exact .inr fun i _ => hnot i
      · exact .inl hy
    · rw [pages_carved hkn rfl, hi.mem_ring hf.place hb hring, mem_withFresh, hb.index.2,
        isBucket_bucket]
      simp [or_comm]
    · have hne : i + 4 ≠ l := by omega
      rw [pages_carved hkn rfl, isBucket_bucket]
      simp [hne]
  · refine Abs.blocks_set hf.place ?_
    rw [pagenrToAddr, hf.shift, hplace₂.membase, Option.map_some, Option.toList_some]
    have := blocksOf_carved (A := A) (B := B) (s := freshPage l) ext.membase hkn rfl
    rw [Seg.blocks, busy_fresh hb, mul_comm (512 : ℤ)] at this
    simpa using this
  · exact congrArg (sizeAdd · _) hr.usedSize
  · intro u hu
    rcases hr.uses u hu with hu | ⟨h₁, h₂, h₃⟩
    · exact .inl hu
    · exact .inr (hi.names hf.place hb hring (h₁.trans hplace.mem) h₂ h₃)

end Blocks

section Scan

variable {c : Cfg} {h : EvlHeap} {abs : Abs} {l j bsize : ℕ} {ext : HeapExtent}
  {exts rest : List HeapExtent} {A B : List Seg} {R : List ℤ} {map : BitVec 32} {pg : ℤ}

/-- No list, no block. -/
theorem bucketScan_empty (hb : h.bucket (l - 4) = .ok (-1)) :
    bucketScan c bsize l h j exts = .ok (h, none) := by
  induction exts generalizing j with
  | nil => rfl
  | cons ext exts ih =>
    simp only [bucketScan, hb, ok_bind, ih]
    rfl

/-- The scan stops at a full page. -/
theorem bucketScan_full (hb : h.bucket (l - 4) = .ok pg) (hp : ext.HasPage pg)
    (hfull : (ext.pagemap pg).map = BitVec.allOnes 32) :
    bucketScan c bsize l h j (ext :: rest) = .ok (h.touch ext pg l, none) := by
  have hneg : ¬ pg < 0 := by
    have := hp.1
    omega
  simp only [bucketScan, hb, ok_bind, hneg, if_false, entry_eq hp, hfull, if_true]
  rfl

/-- The map after the first free slot is taken. -/
def taken (map : BitVec 32) : BitVec 32 := map ||| 1#32 <<< tzcount (~~~ map)

theorem taken_busy (hb : Bucketed l) (hp : Padded l map) (hmap : map ≠ BitVec.allOnes 32) :
    tzcount (~~~ map) < slots l ∧ Padded l (taken map) ∧
      (busy l (taken map)).Perm (tzcount (~~~ map) :: busy l map) := by
  obtain ⟨hlt, hfree⟩ := tzcount_spec hmap
  have hslot : tzcount (~~~ map) < slots l := by
    by_contra hge
    rw [hp _ (by omega) hlt] at hfree
    exact absurd hfree (by simp)
  exact ⟨hslot, padded_setBit hlt hp, busy_set hb hslot hfree⟩

theorem Relinks.refl {L S : List ℤ} (hl : OnList h ext l L) : Relinks h ext l L L S h ext := by
  refine ⟨rfl, .refl _ _, hl.ring, ?_, fun u hu => .inl hu⟩
  rw [← hl.head, EvlHeap.setBucket, Function.update_eq_self]
  rfl

/-- A free block of the page at the head of the list. -/
theorem bucketScan_hit (hi : HeapInv c h abs) (hb : Bucketed l)
    (hj : abs.pairs[0]? = some (ext, A ++ .bucket l map :: B)) (hhome : abs.home (l - 4) = 0)
    (hring : abs.ring (l - 4) = ((cover Seg.pages A : ℕ) : ℤ) :: R) (hmap : map ≠ BitVec.allOnes 32) :
    ∃ ext' h' r abs', bucketScan c (2 ^ l) l h 0 h.extents = .ok (h', some r) ∧
      r = ext.membase + cover Seg.pages A * 512 + (tzcount (~~~ map) * 2 ^ l : ℕ) ∧
      abs' = (abs.set 0 ext' (A ++ .bucket l (taken map) :: B)).relink (l - 4) 0
        (rotateFull (abs.ring (l - 4)) (taken map)) ∧
      HeapInv c h' abs' ∧ Hands h abs (2 ^ l) h' (some r) abs' := by
  obtain ⟨rest, hexts⟩ : ∃ rest, h.extents = ext :: rest := by
    rw [hi.extents]
    cases hpairs : abs.pairs with
    | nil => simp [hpairs] at hj
    | cons x pairs =>
      simp only [hpairs, List.getElem?_cons_zero, Option.some.injEq] at hj
      exact ⟨pairs.map Prod.fst, by simp [hj]⟩
  have hold := hi.holds _ (List.mem_of_getElem? hj)
  have htile : (cover Seg.pages A, Seg.bucket l map) ∈
      place Seg.pages 0 (A ++ .bucket l map :: B) := by simp
  obtain ⟨htype, hmapOf, hshift⟩ := hold.described _ htile
  have hpg := hold.hasPage htile
  obtain ⟨-, hpad, hbusy⟩ := hold.valid (.bucket l map) (by simp)
  obtain ⟨hslot, hpad', htaken⟩ := taken_busy hb hpad hmap
  have hl := hi.onList hj hb fun _ => hhome
  have hbucket := hl.bucket_eq
  simp only [hring, List.head?_cons, Option.getD_some] at hbucket
  simp only at htype hmapOf hshift
  generalize hx : ((cover Seg.pages A : ℕ) : ℤ) = x at *
  let m := Function.update ext.pagemap x ((ext.pagemap x).setMap (taken map))
  let ext₁ := ext.withPagemap m
  let h₁ := (h.touch ext x l).withUsed (sizeAdd h.usedSize (2 ^ l))
  have hm : ∀ q, q ≠ x → m q = ext.pagemap q := fun q hq => Function.update_of_ne hq ..
  have hself : m x = (ext.pagemap x).setMap (taken map) := Function.update_self ..
  have hlinks : LinksEq ext.pagemap m := linksEq_update rfl rfl
  have hl₁ : OnList h₁ ext₁ l (x :: R) := by
    rw [← hring]
    refine ⟨hl.index, hl.head, ?_, hl.pages, hl.bound⟩
    simp only [ext₁, withPagemap_pagemap, hlinks.next, hlinks.prev]
    exact hl.ring
  -- the page goes to the back when its last slot was taken
  obtain ⟨h₂, ext₂, hback, hstay, hr⟩ : ∃ h₂ ext₂,
      (taken map = BitVec.allOnes 32 → movePageBack h₁ ext₁ x l = .ok (h₂, ext₂)) ∧
      (taken map ≠ BitVec.allOnes 32 → h₂ = h₁ ∧ ext₂ = ext₁) ∧
      Relinks h₁ ext₁ l (x :: R) (rotateFull (x :: R) (taken map)) (x :: R) h₂ ext₂ := by
    by_cases hfull : taken map = BitVec.allOnes 32
    · obtain ⟨h₂, ext₂, hrun, hr⟩ := movePageBack_spec (A := []) (B := R) hl₁
      refine ⟨h₂, ext₂, fun _ => hrun, fun hne => absurd hfull hne, ?_⟩
      rw [rotateFull, if_pos hfull]
      exact hr
    · refine ⟨h₁, ext₁, fun h => absurd h hfull, fun _ => ⟨rfl, rfl⟩, ?_⟩
      rw [rotateFull, if_neg hfull]
      exact .refl hl₁
  have hbusy' : busy l (taken map) ≠ [] := by
    have hlen := htaken.length_eq
    exact List.length_pos_iff.mp (by rw [hlen]; simp)
  obtain ⟨hplace₂, hold', hframe⟩ := hr.remap hold ⟨hb, hpad', hbusy'⟩ (hx ▸ hm) (hx ▸ hself)
    (by simp [hx])
  refine ⟨ext₂, h₂.setExtent 0 ext₂, ext.membase + x * 512 + (tzcount (~~~ map) * 2 ^ l : ℕ), _, ?_,
    rfl, rfl, ?_, ?_, ?_, ?_⟩
  · have hneg : ¬ x < 0 := by omega
    simp only [hexts, bucketScan, hbucket, ok_bind, hneg, if_false, entry_eq hpg, hmapOf, hmap,
      setMap_eq hpg, hshift, Nat.shiftLeft_eq]
    change (if taken map = BitVec.allOnes 32 then movePageBack h₁ ext₁ x l >>= fun y => .ok
      (y.1.setExtent 0 y.2, some (ext.membase + x * 512 + (tzcount (~~~ map) * 2 ^ l : ℕ))) else .ok
      (h₁.setExtent 0 ext₁, some (ext.membase + x * 512 + (tzcount (~~~ map) * 2 ^ l : ℕ)))) = _
    by_cases hfull : taken map = BitVec.allOnes 32
    · rw [if_pos hfull, hback hfull]
      rfl
    · obtain ⟨rfl, rfl⟩ := hstay hfull
      rw [if_neg hfull]
  · have hext : (h₂.setExtent 0 ext₂).extents = h.extents.set 0 ext₂ :=
      congrArg (List.set · 0 ext₂) hr.extents
    have husable : (h₂.setExtent 0 ext₂).usableSize = h.usableSize := hr.usableSize
    have hbuckets : (h₂.setExtent 0 ext₂).buckets = Function.update h.buckets (l - 4)
        ((rotateFull (abs.ring (l - 4)) (taken map)).head?.getD (-1)) := by
      rw [hring]
      exact hr.buckets
    have hring₂ := hr.ring
    rw [← hring] at hring₂
    refine hi.relinked (S := x :: R) hj hb (fun _ => hhome) hplace₂ hold' hext husable hbuckets
      hring₂ hframe (fun y hy => .inl (hring ▸ hy)) (fun y => ?_) fun i _ _ y => pages_remap
    rw [pages_remap, hi.mem_ring hj hb fun _ => hhome, mem_rotateFull]
  · refine Abs.blocks_set hj ?_
    have := blocksOf_remap (A := A) (B := B) ext.membase htaken
    rw [hx, mul_comm (512 : ℤ)] at this
    rw [hplace₂.membase]
    exact this
  · exact hr.usedSize
  · intro u hu
    have hnames {u : Use} (h₁ : u.ext = ext.mem) (h₂ : u.page ∈ x :: R) (h₃ : u.log2size = l) :
        abs.Names u := hi.names hj hb (fun _ => hhome) h₁ (hring ▸ h₂) h₃
    rcases hr.uses u hu with hu | ⟨hu₁, hu₂, hu₃⟩
    · rcases List.mem_cons.mp hu with rfl | hu
      · exact .inr (hnames rfl List.mem_cons_self rfl)
      · exact .inl hu
    · exact .inr (hnames hu₁ hu₂ hu₃)

end Scan

section Alloc

variable {c : Cfg} {h : EvlHeap} {abs : Abs} {size : ℕ}

/-- What an allocation finds, and what it does to the layouts and the rings. -/
inductive Allocated (c : Cfg) (abs : Abs) (size : ℕ) : Option ℤ → Abs → Prop
  | empty : size = 0 → Allocated c abs size none abs
  | noRange {k l : ℕ} : size ≠ 0 → 0 < k → blockSize size = (512 * k, l) →
      (∀ x ∈ abs.pairs, NoRoom k x.2) → Allocated c abs size none abs
  | noPage {l : ℕ} : size ≠ 0 → Bucketed l → blockSize size = (2 ^ l, l) → ¬ abs.HeadRoom l →
      (∀ x ∈ abs.pairs, NoRoom 1 x.2) → Allocated c abs size none abs
  | range {k l j n : ℕ} {ext : HeapExtent} {A B : List Seg} (ext' : HeapExtent) : size ≠ 0 →
      0 < k → blockSize size = (512 * k, l) → Found c abs k j ext A n B →
      Allocated c abs size (some (ext.membase + carvedPage A n k * 512))
        (abs.set j ext' (carved A n k (.multi k) B))
  | page {l j n : ℕ} {ext : HeapExtent} {A B : List Seg} (ext' : HeapExtent) : size ≠ 0 →
      Bucketed l → blockSize size = (2 ^ l, l) → ¬ abs.HeadRoom l → Found c abs 1 j ext A n B →
      Allocated c abs size (some (ext.membase + carvedPage A n 1 * 512))
        ((abs.set j ext' (carved A n 1 (freshPage l) B)).relink (l - 4) j
          (withFresh (carvedPage A n 1 : ℕ) (abs.ring (l - 4))))
  | hit {l : ℕ} {ext : HeapExtent} {A B : List Seg} {map : BitVec 32} {R : List ℤ}
      (ext' : HeapExtent) : size ≠ 0 → Bucketed l → blockSize size = (2 ^ l, l) →
      abs.pairs[0]? = some (ext, A ++ .bucket l map :: B) → abs.home (l - 4) = 0 →
      abs.ring (l - 4) = ((cover Seg.pages A : ℕ) : ℤ) :: R → map ≠ BitVec.allOnes 32 →
      Allocated c abs size
        (some (ext.membase + cover Seg.pages A * 512 + (tzcount (~~~ map) * 2 ^ l : ℕ)))
        ((abs.set 0 ext' (A ++ .bucket l (taken map) :: B)).relink (l - 4) 0
          (rotateFull (abs.ring (l - 4)) (taken map)))

theorem Hands.touch {ext : HeapExtent} {y : ℤ} {l bsize : ℕ} {h' : EvlHeap} {r : Option ℤ}
    {abs' : Abs} (hh : Hands (h.touch ext y l) abs bsize h' r abs')
    (hn : abs.Names ⟨ext.mem, y, l⟩) : Hands h abs bsize h' r abs' := by
  refine ⟨hh.blocks, hh.used, fun u hu => ?_⟩
  rcases hh.uses u hu with hu | hu
  · rcases List.mem_cons.mp hu with rfl | hu
    · exact .inr hn
    · exact .inl hu
  · exact .inr hu

theorem Hands.none {bsize : ℕ} : Hands h abs bsize h none abs :=
  ⟨.refl _, rfl, fun _ hu => .inl hu⟩

/-- A list that gives no block is left for a fresh page. -/
theorem alloc_page {l : ℕ} (hi : HeapInv c h abs) (hb : Bucketed l) (hsize : size ≠ 0)
    (hbs : blockSize size = (2 ^ l, l)) (hno : ¬ abs.HeadRoom l) (hshift : Shiftable c h 512)
    (hhome : ∀ j ext A n B, Found c abs 1 j ext A n B →
      abs.ring (l - 4) ≠ [] → abs.home (l - 4) = j) :
    ∃ h' r abs', addFreeRange c h (2 ^ l) l = .ok (h', r) ∧ Allocated c abs size r abs' ∧
      HeapInv c h' abs' ∧ Hands h abs (2 ^ l) h' r abs' := by
  by_cases hroom : ∀ x ∈ abs.pairs, NoRoom 1 x.2
  · exact ⟨h, none, abs, addFreeRange_none hi one_pos (by decide)
      (fun e _ => HeapExtent.fits_of_lt (by decide)) (alignTo_bucket hb) hroom,
      .noPage hsize hb hbs hno hroom, hi, .none⟩
  · obtain ⟨j, ext, A, n, B, ext', h', r, abs', hf, hrun, rfl, rfl, hi', hh⟩ :=
      addFreeRange_page hi hb hshift hhome hroom
    exact ⟨h', _, _, hrun, .page ext' hsize hb hbs hno hf, hi', hh⟩

theorem alloc_range {k l : ℕ} (hi : HeapInv c h abs) (hk : 0 < k) (hk' : 512 * k + 511 < 2 ^ 64)
    (hsize : size ≠ 0) (hbs : blockSize size = (512 * k, l))
    (hfit : ∀ ext ∈ h.extents, ext.Fits (512 * k)) (hshift : Shiftable c h (512 * k)) :
    ∃ h' r abs', addFreeRange c h (512 * k) 0 = .ok (h', r) ∧ Allocated c abs size r abs' ∧
      HeapInv c h' abs' ∧ Hands h abs (512 * k) h' r abs' := by
  by_cases hroom : ∀ x ∈ abs.pairs, NoRoom k x.2
  · exact ⟨h, none, abs, addFreeRange_none hi hk (by omega) hfit (alignTo_pages hk') hroom,
      .noRange hsize hk hbs hroom, hi, .none⟩
  · obtain ⟨j, ext, A, n, B, ext', h', r, hf, hrun, rfl, hi', hh⟩ :=
      addFreeRange_multi hi hk hk' hfit hshift hroom
    exact ⟨h', _, _, hrun, .range ext' hsize hk hbs hf, hi', hh⟩

theorem alloc_unfold {l : ℕ} (hb : Bucketed l) (hsize : size ≠ 0)
    (hbs : blockSize size = (2 ^ l, l)) :
    evlAllocBlockUnlocked c h size =
      (bucketScan c (2 ^ l) l h 0 h.extents >>= fun x => match x.2 with
        | some block => .ok (x.1, some block)
        | none => addFreeRange c x.1 (2 ^ l) l) := by
  have hlt : 2 ^ l < 512 := Nat.pow_lt_pow_right (by decide) hb.2
  have hassert : AvlTree.assert c.debug (4 ≤ l ∧ l - 4 < 5) = .ok () := by
    have := hb.index.1
    simp [AvlTree.assert, hb.1, this]
  simp only [evlAllocBlockUnlocked, hsize, if_false, hbs, hlt, if_true, hassert, ok_bind]
  rfl

/-- A bucketed request. -/
theorem alloc_bucket {l : ℕ} (hi : HeapInv c h abs) (hb : Bucketed l) (hsize : size ≠ 0)
    (hbs : blockSize size = (2 ^ l, l)) (hshift : ¬ abs.HeadRoom l → Shiftable c h 512)
    (hhome : abs.ring (l - 4) ≠ [] → abs.home (l - 4) = 0 ∧
      (abs.HeadRoom l ∨ ∀ j ext A n B, Found c abs 1 j ext A n B → j = 0)) :
    ∃ h' r abs', evlAllocBlockUnlocked c h size = .ok (h', r) ∧ Allocated c abs size r abs' ∧
      HeapInv c h' abs' ∧ Hands h abs (2 ^ l) h' r abs' := by
  rw [alloc_unfold hb hsize hbs]
  cases hring : abs.ring (l - 4) with
  | nil =>
    have hhead := hi.rings.head _ hb.index.1
    rw [hring] at hhead
    have hbucket : h.bucket (l - 4) = .ok (-1) := by
      rw [EvlHeap.bucket, if_pos hb.index.1, hhead]
      rfl
    have hno : ¬ abs.HeadRoom l := by
      rintro ⟨y, R, x, hy, -⟩
      simp [hring] at hy
    obtain ⟨h', r, abs', hrun, hout⟩ := alloc_page hi hb hsize hbs hno (hshift hno)
      fun _ _ _ _ _ _ hne => absurd hring hne
    exact ⟨h', r, abs', by simp only [bucketScan_empty hbucket, ok_bind, hrun], hout⟩
  | cons y R =>
    have hne : abs.ring (l - 4) ≠ [] := by simp [hring]
    obtain ⟨hzero, hroom⟩ := hhome hne
    have hlen := hi.rings.home _ hb.index.1 hne
    rw [hzero] at hlen
    obtain ⟨⟨ext, segs⟩, hj⟩ : ∃ x, abs.pairs[0]? = some x := ⟨_, List.getElem?_eq_getElem hlen⟩
    have hy : y ∈ abs.ring (l - 4) := by simp [hring]
    have hold := hi.holds _ (List.mem_of_getElem? hj)
    obtain ⟨p, map, hp, rfl⟩ := (hi.mem_ring hj hb fun _ => hzero).mpr hy
    rw [hb.index.2] at hp
    obtain ⟨A, B, rfl, hpA⟩ := mem_place.mp hp
    rw [Nat.zero_add] at hpA
    by_cases hmap : map = BitVec.allOnes 32
    · have hno : ¬ abs.HeadRoom l := by
        rintro ⟨y, R', x, hy, hx, q, m, hq, hyq, hm⟩
        rw [hzero, hj] at hx
        obtain rfl := Option.some.inj hx
        obtain ⟨rfl, -⟩ := List.cons.inj (hy.symm.trans hring)
        obtain rfl : q = p := by omega
        rcases place_apart hq hp with heq | hlt | hlt
        · cases heq
          exact hm hmap
        all_goals
          simp only [Seg.pages] at hlt
          omega
      obtain ⟨-, hmapOf, -⟩ := hold.described _ hp
      have hbucket : h.bucket (l - 4) = .ok (p : ℤ) := by
        rw [EvlHeap.bucket, if_pos hb.index.1, hi.rings.head _ hb.index.1, hring]
        rfl
      obtain ⟨rest, hexts⟩ : ∃ rest, h.extents = ext :: rest := by
        rw [hi.extents]
        obtain ⟨x, pairs, hpairs⟩ := List.exists_cons_of_length_pos hlen
        rw [hpairs] at hj ⊢
        obtain rfl := Option.some.inj hj
        exact ⟨_, rfl⟩
      have hi₁ : HeapInv c (h.touch ext p l) abs := hi.congr rfl rfl rfl
      obtain ⟨h', r, abs', hrun, hout, hi', hh⟩ := alloc_page hi₁ hb hsize hbs hno (hshift hno)
        fun j ext A n B hf _ => hzero.trans ((hroom.resolve_left hno) j ext A n B hf).symm
      refine ⟨h', r, abs', ?_, hout, hi', hh.touch ⟨hb, _, List.mem_of_getElem? hj, rfl, p, map, hp, rfl⟩⟩
      rw [hexts, bucketScan_full hbucket (hold.hasPage hp) (hmapOf.trans hmap), ok_bind]
      exact hrun
    · obtain ⟨ext', h', r, abs', hrun, rfl, rfl, hi', hh⟩ := bucketScan_hit hi hb hj hzero
        (hpA ▸ hring) hmap
      exact ⟨h', _, _, by simp only [hrun, ok_bind],
        .hit ext' hsize hb hbs hj hzero (hpA ▸ hring) hmap, hi', hh⟩

/-- `evl_alloc_block_unlocked`. -/
theorem alloc_spec (hi : HeapInv c h abs) (hfits : RequestFits h size)
    (hshift : (∀ l, Bucketed l → blockSize size = (2 ^ l, l) → ¬ abs.HeadRoom l) →
      Shiftable c h (alignTo (blockSize size).1 512))
    (hhome : ∀ l, Bucketed l → blockSize size = (2 ^ l, l) → abs.ring (l - 4) ≠ [] →
      abs.home (l - 4) = 0 ∧
        (abs.HeadRoom l ∨ ∀ j ext A n B, Found c abs 1 j ext A n B → j = 0)) :
    ∃ h' r abs', evlAllocBlockUnlocked c h size = .ok (h', r) ∧ Allocated c abs size r abs' ∧
      HeapInv c h' abs' ∧ Hands h abs (blockSize size).1 h' r abs' := by
  by_cases hsize : size = 0
  · refine ⟨h, none, abs, ?_, .empty hsize, hi, .none⟩
    rw [evlAllocBlockUnlocked, if_pos hsize]
    rfl
  rcases (blockSize_cases hfits.1).2 with ⟨l, hb, hbs⟩ | ⟨k, l, hk, hk', hbs⟩
  · have halign : alignTo (blockSize size).1 512 = 512 := by rw [hbs, alignTo_bucket hb]
    rw [halign] at hshift
    rw [hbs]
    refine alloc_bucket hi hb hsize hbs (fun hno => hshift fun l' hb' hbs' => ?_) (hhome l hb hbs)
    obtain rfl : l = l' := congrArg Prod.snd (hbs.symm.trans hbs')
    exact hno
  · have hfit := hfits.2
    rw [hbs] at hfit hshift ⊢
    rw [alignTo_pages hk'] at hshift
    have hge : ¬ 512 * k < 512 := by omega
    simp only [evlAllocBlockUnlocked, hsize, if_false, hbs, hge]
    refine alloc_range hi hk hk' hsize hbs hfit (hshift fun l' hb' hbs' => ?_)
    have hlt : 2 ^ l' < 512 := Nat.pow_lt_pow_right (by decide) hb'.2
    have := congrArg Prod.fst hbs'
    simp only at this
    omega

end Alloc

end Libevl.Heap
