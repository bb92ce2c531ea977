import Libevl.HeapAlloc

/-!
# Release

Pages that are released are joined with the free tiles on both sides. The last
block of a bucket page releases its page. A page that was full goes to the front
of its list.
-/
namespace Libevl.Heap
open AvlTree Tiling PageRing

section Release

variable {c : Cfg} {ext : HeapExtent} {A B : List Seg} {s : Seg} {base : ℤ} {p : ℕ}

/-- The free tile that may stand in front of a tile. -/
theorem exists_left (base : ℤ) (hv : ∀ t ∈ A, t.Valid) :
    ∃ A' L, A = A' ++ (Option.map Seg.free L).toList ∧
      (L = none → ∀ q ∈ frees base 0 A', q.1 + (q.2 : ℤ) < base + 512 * (cover Seg.pages A' : ℤ)) := by
  rcases List.eq_nil_or_concat A with rfl | ⟨A', t, rfl⟩
  · exact ⟨[], none, rfl, by simp⟩
  have hused (hu : t.Used) : ∀ q ∈ frees base 0 (A' ++ [t]),
      q.1 + (q.2 : ℤ) < base + 512 * (cover Seg.pages (A' ++ [t]) : ℤ) := by
    intro q hq
    rw [frees_append, hu.frees, frees_nil, List.append_nil] at hq
    have hb := (frees_bounds hq).2
    have ht := (hv t (by simp)).pages_pos
    simp only [cover_append, cover_cons, cover_nil]
    omega
  cases t with
  | free m => exact ⟨A', some m, by simp, by simp⟩
  | multi m => exact ⟨A' ++ [.multi m], none, by simp, fun _ => hused trivial⟩
  | bucket l map => exact ⟨A' ++ [.bucket l map], none, by simp, fun _ => hused trivial⟩

/-- The free tile that may follow a tile. -/
theorem exists_right (base : ℤ) (p : ℕ) (hv : ∀ t ∈ B, t.Valid) :
    ∃ R B', B = (Option.map Seg.free R).toList ++ B' ∧
      (R = none → ∀ q ∈ frees base p B', base + 512 * (p : ℤ) < q.1) := by
  cases B with
  | nil => exact ⟨none, [], rfl, by simp⟩
  | cons t B =>
    have hused (hu : t.Used) : ∀ q ∈ frees base p (t :: B), base + 512 * (p : ℤ) < q.1 := by
      intro q hq
      rw [hu.frees] at hq
      have hb := (frees_bounds hq).1
      have ht := (hv t (by simp)).pages_pos
      omega
    cases t with
    | free m => exact ⟨some m, B, rfl, by simp⟩
    | multi m => exact ⟨none, .multi m :: B, rfl, fun _ => hused trivial⟩
    | bucket l map => exact ⟨none, .bucket l map :: B, rfl, fun _ => hused trivial⟩

/-- The range of a free tile that may be missing. -/
def rangeOf (base : ℤ) (p : ℕ) (t : Option ℕ) : Option (ℤ × ℕ) :=
  t.map fun n => (base + 512 * (p : ℤ), 512 * n)

theorem frees_option (base : ℤ) (p : ℕ) (t : Option ℕ) :
    frees base p (Option.map Seg.free t).toList = (rangeOf base p t).toList ∧
      cover Seg.pages (Option.map Seg.free t).toList = t.getD 0 ∧
      sizeOf (rangeOf base p t) = 512 * t.getD 0 := by
  cases t with
  | none => exact ⟨rfl, rfl, rfl⟩
  | some n => exact ⟨rfl, Nat.add_zero n, rfl⟩

/-- Released pages become one free tile with those around them. -/
theorem Holds.release (h : Holds c ext (A ++ s :: B)) (hu : s.Used) {m : ℤ → HeapPgentry}
    (hm : ∀ q : ℕ, q < cover Seg.pages A ∨ cover Seg.pages A + s.pages ≤ q →
      (m q).type = (ext.pagemap q).type ∧ (m q).map = (ext.pagemap q).map) :
    ∃ A' L R B' ext', A = A' ++ (Option.map Seg.free L).toList ∧
      B = (Option.map Seg.free R).toList ++ B' ∧
      releasePageRange c (ext.withPagemap m) (ext.membase + 512 * (cover Seg.pages A : ℤ))
        (512 * s.pages) = .ok ext' ∧ SamePlace ext ext' ∧ LinksEq m ext'.pagemap ∧
      Holds c ext' (A' ++ .free (L.getD 0 + s.pages + R.getD 0) :: B') := by
  obtain ⟨A', L, rfl, hleft⟩ := exists_left (A := A) ext.membase fun t ht => h.valid t (by simp [ht])
  obtain ⟨R, B', rfl, hright⟩ := exists_right (B := B) ext.membase
    (cover Seg.pages (A' ++ (Option.map Seg.free L).toList) + s.pages)
    fun t ht => h.valid t (by simp [ht])
  obtain ⟨hfL, hcL, hsL⟩ := frees_option ext.membase (cover Seg.pages A') L
  obtain ⟨hfR, hcR, hsR⟩ := frees_option ext.membase
    (cover Seg.pages A' + L.getD 0 + s.pages) R
  have htotal := h.total
  have hbound := h.bound
  have hk := (h.valid s (by simp)).pages_pos
  have h' : Holds c ext (A' ++ ((Option.map Seg.free L).toList ++ [s] ++
      (Option.map Seg.free R).toList) ++ B') := by simpa using h
  simp only [cover_append, cover_cons, hcL, hcR] at htotal hright hm ⊢
  have hranges := h.ranges.withPagemap m
  simp only [frees_append, hu.frees, cover_append, Nat.zero_add, hcL, hcR, hfL, hfR] at hranges
  have hpre : ∀ q ∈ frees ext.membase 0 A', q.1 + (q.2 : ℤ) <
      ext.membase + 512 * ((cover Seg.pages A' + L.getD 0 : ℕ) : ℤ) := by
    intro q hq
    cases L with
    | none => simpa using hleft rfl q hq
    | some n =>
      have hpl := (List.pairwise_append.mp (List.pairwise_append.mp hranges.apart).1).2.2 q hq
        _ List.mem_cons_self
      push_cast
      simp only at hpl
      simp only [Option.getD_some]
      omega
  have hpost : ∀ q ∈ frees ext.membase (cover Seg.pages A' + L.getD 0 + s.pages + R.getD 0) B',
      ext.membase + 512 * ((cover Seg.pages A' + L.getD 0 : ℕ) : ℤ) + (512 * s.pages : ℕ) < q.1 := by
    intro q hq
    cases R with
    | none =>
      have := hright rfl q hq
      push_cast at this ⊢
      omega
    | some n =>
      have hpr := (List.pairwise_append.mp (List.pairwise_append.mp hranges.apart).2.1).2.2
        _ List.mem_cons_self q hq
      simp only at hpr
      push_cast at hpr ⊢
      omega
  have hL : ∀ l ∈ rangeOf ext.membase (cover Seg.pages A') L, l.1 + (l.2 : ℤ) =
      ext.membase + 512 * ((cover Seg.pages A' + L.getD 0 : ℕ) : ℤ) := by
    intro l hl
    cases L with
    | none => simp [rangeOf] at hl
    | some n =>
      obtain rfl := Option.some.inj hl
      push_cast
      simp only [Option.getD_some]
      omega
  have hR : ∀ r ∈ rangeOf ext.membase (cover Seg.pages A' + L.getD 0 + s.pages) R,
      ext.membase + 512 * ((cover Seg.pages A' + L.getD 0 : ℕ) : ℤ) + (512 * s.pages : ℕ) = r.1 := by
    intro r hr
    cases R with
    | none => simp [rangeOf] at hr
    | some n =>
      obtain rfl := Option.some.inj hr
      push_cast
      omega
  obtain ⟨ext₁, hrun, hsame, hranges₁⟩ := Ranges.release (c := c) _ _ hranges (by omega)
    (by rw [hsL, hsR]; omega) hpre hL hR hpost
  have hpage : addrToPagenr c ext₁
      (ext.membase + 512 * ((cover Seg.pages A' + L.getD 0 : ℕ) : ℤ)) =
        (cover Seg.pages A' + L.getD 0 : ℕ) := by
    have hdiv : (ext.membase + 512 * ((cover Seg.pages A' + L.getD 0 : ℕ) : ℤ) - ext₁.membase) / 512 =
        (cover Seg.pages A' + L.getD 0 : ℕ) := by
      rw [hsame.membase]
      change (ext.membase + _ - ext.membase) / 512 = _
      omega
    rw [addrToPagenr, hdiv, int_of_lt (by omega) (by omega)]
  have hcount : c.int (512 * s.pages / 512 : ℕ) = s.pages := by
    rw [int_of_lt (by omega) (by omega)]
    omega
  have hhas : ∀ q : ℤ, (cover Seg.pages A' + L.getD 0 : ℕ) ≤ q →
      q < (cover Seg.pages A' + L.getD 0 : ℕ) + s.pages → ext₁.HasPage q := by
    intro q h₁ h₂
    rw [HeapExtent.HasPage, hsame.nrpages]
    change 0 ≤ q ∧ q < ext.nrpages
    omega
  obtain ⟨m', hmark, hlinks, hmaps, hout, htypes⟩ := markPages_spec (c := c) pageFree hhas
  rw [hsame.pagemap, withPagemap_pagemap] at hlinks hmaps hout
  rw [hpage, hcount, hmark] at hrun
  have hplace : SamePlace ext (ext₁.withPagemap m') :=
    (samePlace_withPagemap.trans hsame.samePlace).trans samePlace_withPagemap
  refine ⟨A', L, R, B', ext₁.withPagemap m', rfl, rfl, hrun, hplace, hlinks, ?_⟩
  suffices hnew : Holds c (ext₁.withPagemap m')
      (A' ++ [.free (L.getD 0 + s.pages + R.getD 0)] ++ B') by simpa using hnew
  refine h'.replace hplace ?_ ?_ ?_ ?_ ?_
  · simp only [cover_append, cover_cons, cover_nil, hcL, hcR]
    rfl
  · intro t ht
    obtain rfl := List.mem_singleton.mp ht
    exact Nat.lt_of_lt_of_le hk (by omega)
  · have hjoin : ((rangeOf ext.membase (cover Seg.pages A') L).elim
        (ext.membase + 512 * ((cover Seg.pages A' + L.getD 0 : ℕ) : ℤ)) Prod.fst,
        sizeOf (rangeOf ext.membase (cover Seg.pages A') L) + 512 * s.pages +
          sizeOf (rangeOf ext.membase (cover Seg.pages A' + L.getD 0 + s.pages) R)) =
        (ext.membase + 512 * (cover Seg.pages A' : ℤ), 512 * (L.getD 0 + s.pages + R.getD 0)) := by
      rw [hsL, hsR, Prod.mk.injEq]
      refine ⟨?_, by omega⟩
      cases L with
      | none => rfl
      | some n => rfl
    rw [hjoin] at hranges₁
    have hpos : cover Seg.pages A' + L.getD 0 + s.pages + R.getD 0 =
        cover Seg.pages A' + (L.getD 0 + s.pages + R.getD 0) := by omega
    rw [hpos] at hranges₁
    rw [List.append_assoc, List.singleton_append, frees_append, frees_free, Nat.zero_add]
    exact hranges₁.withPagemap m'
  · intro q hq
    simp only [cover_append, cover_cons, cover_nil, hcL, hcR] at hq
    rw [withPagemap_pagemap, hmaps, hout q (by omega)]
    exact hm q (by omega)
  · intro x hx
    obtain rfl := List.mem_singleton.mp hx
    intro hdebug q h₁ h₂
    have hkeep (hq : q < cover Seg.pages A' + L.getD 0 ∨ cover Seg.pages A' + L.getD 0 + s.pages ≤ q) :
        (m' q).type = (ext.pagemap q).type := by rw [hout q (by omega), (hm q hq).1]
    rw [withPagemap_pagemap]
    rcases Nat.lt_or_ge q (cover Seg.pages A' + L.getD 0) with hlt | hge
    · cases L with
      | none =>
        simp only [Option.getD_none] at hlt
        omega
      | some n =>
        have hd := h'.described (cover Seg.pages A', .free n) (by simp)
        rw [hkeep (.inl hlt), hd hdebug q h₁ hlt]
    · rcases Nat.lt_or_ge q (cover Seg.pages A' + L.getD 0 + s.pages) with hlt | hge'
      · exact htypes hdebug q (by omega) (by omega)
      · cases R with
        | none =>
          simp only [Option.getD_none] at h₂
          omega
        | some n =>
          have hd := h'.described (cover Seg.pages A' + L.getD 0 + s.pages, .free n)
            (by simp [hcL, Nat.add_assoc])
          simp only [Option.getD_some] at h₂
          rw [hkeep (.inr hge'), hd hdebug q hge' (by omega)]

variable {A' B' : List Seg} {L R : Option ℕ}

/-- The tile that is released gives up its blocks. -/
theorem blocksOf_release (base : ℤ) :
    (blocksOf base 0 (A' ++ (Option.map Seg.free L).toList ++
      s :: ((Option.map Seg.free R).toList ++ B'))).Perm
      (s.blocks (base + 512 * (cover Seg.pages (A' ++ (Option.map Seg.free L).toList) : ℤ)) ++
        blocksOf base 0 (A' ++ .free (L.getD 0 + s.pages + R.getD 0) :: B')) := by
  have hfree (p : ℕ) (t : Option ℕ) : blocksOf base p (Option.map Seg.free t).toList = [] := by
    cases t <;> rfl
  have hcover (t : Option ℕ) : cover Seg.pages (Option.map Seg.free t).toList = t.getD 0 :=
    (frees_option base 0 t).2.1
  have hone (p n : ℕ) : blocksOf base p (.free n :: B') = blocksOf base (p + n) B' := rfl
  simp only [blocksOf_append, blocksOf_cons, cover_append, hfree, hcover, hone, Nat.zero_add,
    List.append_nil, List.nil_append]
  rw [show cover Seg.pages A' + L.getD 0 + s.pages + R.getD 0 =
    cover Seg.pages A' + (L.getD 0 + s.pages + R.getD 0) by omega]
  exact List.perm_append_comm_assoc ..

variable {q : ℕ} {u : Seg}

theorem not_mem_place_option {p : ℕ} (hu : u.Used) :
    (q, u) ∉ place Seg.pages p (Option.map Seg.free L).toList := by
  cases L with
  | none => exact List.not_mem_nil
  | some m =>
    intro hmem
    exact not_used_free hu (List.mem_singleton.mp hmem)

/-- The tiles in use before pages were released. -/
theorem mem_released (hu : u.Used) :
    (q, u) ∈ place Seg.pages 0 (A' ++ (Option.map Seg.free L).toList ++
        s :: ((Option.map Seg.free R).toList ++ B')) ↔
      (q, u) ∈ place Seg.pages 0 (A' ++ .free (L.getD 0 + s.pages + R.getD 0) :: B') ∨
        (q, u) = (cover Seg.pages (A' ++ (Option.map Seg.free L).toList), s) := by
  have hcover (t : Option ℕ) : cover Seg.pages (Option.map Seg.free t).toList = t.getD 0 :=
    (frees_option 0 0 t).2.1
  have hpos : cover Seg.pages A' + L.getD 0 + s.pages + R.getD 0 =
      cover Seg.pages A' + (L.getD 0 + s.pages + R.getD 0) := by omega
  rw [mem_place_middle, mem_place_middle, place_append, List.mem_append, place_append,
    List.mem_append, cover_append, hcover, hcover]
  simp only [Nat.zero_add, hpos, pages_free, not_mem_place_option hu, not_used_free hu, or_false,
    false_or]
  tauto

theorem pages_release {i : ℕ} {y : ℤ} :
    Pages (A' ++ (Option.map Seg.free L).toList ++ s :: ((Option.map Seg.free R).toList ++ B')) i y ↔
      Pages (A' ++ .free (L.getD 0 + s.pages + R.getD 0) :: B') i y ∨
        IsBucket [(cover Seg.pages (A' ++ (Option.map Seg.free L).toList), s)] (i + 4) y :=
  isBucket_of_mem fun _ _ => mem_released (.bucket ..)

end Release

section Find

variable {c : Cfg} {h : EvlHeap} {abs : Abs} {j : ℕ} {ext : HeapExtent} {segs : List Seg} {a : ℤ}

theorem findExtent_of_first {exts : List HeapExtent} (hj : exts[j]? = some ext)
    (hin : ext.membase ≤ a ∧ a < ext.memlim)
    (hout : ∀ i < j, ∀ e, exts[i]? = some e → ¬ (e.membase ≤ a ∧ a < e.memlim)) :
    findExtent a exts = some (j, ext) := by
  induction exts generalizing j with
  | nil => simp at hj
  | cons e exts ih =>
    cases j with
    | zero =>
      obtain rfl : e = ext := by simpa using hj
      rw [findExtent, if_pos hin]
    | succ j =>
      rw [findExtent, if_neg (hout 0 (Nat.succ_pos j) e rfl),
        ih (by simpa using hj) fun i hi e he => hout (i + 1) (by omega) e (by simpa using he)]
      rfl

/-- An address lies in one extent. -/
theorem HeapInv.findExtent (hi : HeapInv c h abs) (hj : abs.pairs[j]? = some (ext, segs))
    (hin : ext.membase ≤ a ∧ a < ext.memlim) : findExtent a h.extents = some (j, ext) := by
  rw [hi.extents]
  refine findExtent_of_first (by simp [hj]) hin fun i hij e he hine => ?_
  rw [List.getElem?_map, Option.map_eq_some_iff] at he
  obtain ⟨x, hx, rfl⟩ := he
  have hareas := List.pairwise_iff_getElem.mp hi.areas i j
    (List.getElem?_eq_some_iff.mp hx).1 (List.getElem?_eq_some_iff.mp hj).1 hij
  rw [(List.getElem?_eq_some_iff.mp hx).2, (List.getElem?_eq_some_iff.mp hj).2] at hareas
  have h₁ := (hi.headers x (List.mem_of_getElem? hx)).2.1
  have h₂ := (hi.headers _ (List.mem_of_getElem? hj)).2.1
  simp only at hareas h₂
  omega

end Find

/-- What becomes of the heap when the block `x` is freed. -/
structure Returns (h : EvlHeap) (abs : Abs) (x : ℤ × ℕ) (h' : EvlHeap) (abs' : Abs) : Prop where
  blocks : abs.blocks.Perm (x :: abs'.blocks)
  used : h'.usedSize = sizeSub h.usedSize x.2
  uses : ∀ u ∈ h'.uses, u ∈ h.uses ∨ abs.Names u

/-- The map after a slot is released. -/
def cleared (map : BitVec 32) (k : ℕ) : BitVec 32 := map &&& ~~~ (1#32 <<< k)

section Blocks

variable {c : Cfg} {h : EvlHeap} {abs : Abs} {j n l k : ℕ} {ext ext' : HeapExtent}
  {A B segs segs' : List Seg} {map : BitVec 32} {pg : ℤ}

theorem Abs.blocks_unset {x : ℤ × ℕ} (hj : abs.pairs[j]? = some (ext, segs))
    (hp : (blocksOf ext.membase 0 segs).Perm (x :: blocksOf ext'.membase 0 segs')) :
    abs.blocks.Perm (x :: (abs.set j ext' segs').blocks) := by
  obtain ⟨hlt, hget⟩ := List.getElem?_eq_some_iff.mp hj
  have hback : (abs.pairs.set j (ext', segs')).set j (ext, segs) = abs.pairs := by
    rw [List.set_set, ← hget, List.set_getElem_self]
  have hj' : (abs.pairs.set j (ext', segs'))[j]? = some (ext', segs') := by simp [hlt]
  have hperm : (((abs.pairs.set j (ext', segs')).set j (ext, segs)).flatMap
      fun y => blocksOf y.1.membase 0 y.2).Perm ([x] ++ (abs.set j ext' segs').blocks) :=
    flatMap_set_perm hj' hp
  rwa [hback] at hperm

theorem pageIsValid_of_type (hp : ext.HasPage pg) (h₁ : (ext.pagemap pg).type ≠ pageFree)
    (h₂ : (ext.pagemap pg).type ≠ pageCont) : pageIsValid c ext pg = .ok true := by
  cases hd : c.debug with
  | false => simp [pageIsValid, hd]
  | true =>
    have hboth : decide ((ext.pagemap pg).type ≠ pageFree ∧ (ext.pagemap pg).type ≠ pageCont) =
        true := decide_eq_true ⟨h₁, h₂⟩
    simp only [pageIsValid, hd, if_true, entry_eq hp, ok_bind, hboth]
    rfl

theorem pageIsValid_bucket (hb : Bucketed l) (hp : ext.HasPage pg) (h : (ext.pagemap pg).type = l) :
    pageIsValid c ext pg = .ok true := by
  have h4 := hb.1
  apply pageIsValid_of_type hp
  · rw [h, pageFree]
    omega
  · rw [h, pageCont]
    omega

theorem Bucketed.ne_pageList (hb : Bucketed l) : l ≠ pageList := by
  have h4 := hb.1
  rw [pageList]
  omega

/-- A block of whole pages is freed. -/
theorem free_multi (hi : HeapInv c h abs) (hj : abs.pairs[j]? = some (ext, A ++ .multi n :: B)) :
    ∃ A' L R B' ext' h' abs', A = A' ++ (Option.map Seg.free L).toList ∧
      B = (Option.map Seg.free R).toList ++ B' ∧
      abs' = abs.set j ext' (A' ++ .free (L.getD 0 + n + R.getD 0) :: B') ∧
      evlFreeBlockUnlocked c h (ext.membase + 512 * (cover Seg.pages A : ℤ)) = .ok (h', 0) ∧
      HeapInv c h' abs' ∧
      Returns h abs (ext.membase + 512 * (cover Seg.pages A : ℤ), 512 * n) h' abs' := by
  have hold : Holds c ext (A ++ .multi n :: B) := hi.holds _ (List.mem_of_getElem? hj)
  have htile : (cover Seg.pages A, Seg.multi n) ∈ place Seg.pages 0 (A ++ .multi n :: B) := by simp
  have hp := hold.hasPage htile
  have hn : 0 < n := hold.valid (.multi n) (by simp)
  obtain ⟨htype, hmap, -, hshift⟩ := hold.described _ htile
  have hbounds := place_bounds htile
  have hlimit := hold.limit
  have htotal := hold.total
  have hbound := hold.bound
  simp only [Seg.pages, Nat.zero_add] at htype hmap hshift hbounds hlimit htotal hbound
  have hfind := hi.findExtent (a := ext.membase + 512 * (cover Seg.pages A : ℤ)) hj
    ⟨by omega, by omega⟩
  obtain ⟨A', L, R, B', ext', hA, hB, hrun, hplace, hlinks, hold'⟩ := hold.release
    (m := ext.pagemap) trivial fun _ _ => ⟨rfl, rfl⟩
  have hbsize : (ext.pagemap (cover Seg.pages A)).bsize = 512 * n := by
    rw [HeapPgentry.bsize, hmap, BitVec.toNat_ofNat]
    omega
  let h₁ := (h.setExtent j ext').withUsed (sizeSub h.usedSize (512 * n))
  have hext : h₁.extents = h.extents.set j ext' := rfl
  have husable : h₁.usableSize = h.usableSize := rfl
  have hbuckets : h₁.buckets = h.buckets := rfl
  refine ⟨A', L, R, B', ext', h₁, _, hA, hB, rfl, ?_, ?_, ?_, rfl, fun u hu => .inl hu⟩
  · have hoff : (ext.membase + 512 * (cover Seg.pages A : ℤ) - ext.membase).toNat / 512 =
        cover Seg.pages A := by omega
    have hvalid : pageIsValid c ext (cover Seg.pages A) = .ok true :=
      pageIsValid_of_type hp (by rw [htype]; decide) (by rw [htype]; decide)
    have hassert : AvlTree.assert c.debug (512 * n % 512 = 0) = .ok () := by
      simp [AvlTree.assert]
    have haddr : pagenrToAddr c ext (cover Seg.pages A) =
        ext.membase + 512 * (cover Seg.pages A : ℤ) := by
      rw [pagenrToAddr, hshift, mul_comm]
    simp only [evlFreeBlockUnlocked, hfind, hoff, hvalid, ok_bind, if_true, entry_eq hp, htype,
      hbsize, hassert, haddr]
    have hrun' : releasePageRange c ext (ext.membase + 512 * (cover Seg.pages A : ℤ)) (512 * n) =
        .ok ext' := hrun
    rw [hrun']
    rfl
  · refine hi.update hj hplace hold' hext husable
      (hi.rings.keep hj hbuckets (fun i _ y => ?_) fun i _ y _ => ?_)
    · rw [hA, hB, pages_release]
      simp [Seg.pages]
    · exact ⟨congrFun hlinks.next y, congrFun hlinks.prev y⟩
  · refine Abs.blocks_unset hj ?_
    rw [hplace.membase, hA, hB]
    exact blocksOf_release ext.membase

theorem OnList.relabel {L : List ℤ} {m : ℤ → HeapPgentry} (hl : OnList h ext l L)
    (hm : LinksEq ext.pagemap m) : OnList h (ext.withPagemap m) l L := by
  refine ⟨hl.index, hl.head, ?_, hl.pages, hl.bound⟩
  rw [withPagemap_pagemap, hm.next, hm.prev]
  exact hl.ring

theorem busy_eq_nil (hb : Bucketed l) (hp : Padded l map) :
    map = ~~~ genBlockMask l ↔ busy l map = [] := by
  rw [idle_iff hb hp, List.eq_nil_iff_forall_not_mem]
  simp [mem_busy]

/-- The page of a bucketed block, which is on the list of its size. -/
structure OnPage (c : Cfg) (h : EvlHeap) (abs : Abs) (j : ℕ) (ext : HeapExtent) (A B : List Seg)
    (l : ℕ) (map : BitVec 32) (P Q : List ℤ) : Prop where
  inv : HeapInv c h abs
  pair : abs.pairs[j]? = some (ext, A ++ .bucket l map :: B)
  home : abs.home (l - 4) = j
  ring : abs.ring (l - 4) = P ++ ((cover Seg.pages A : ℕ) : ℤ) :: Q

variable {P Q : List ℤ}

theorem bucket_tile (A B : List Seg) (l : ℕ) (map : BitVec 32) :
    (cover Seg.pages A, Seg.bucket l map) ∈ place Seg.pages 0 (A ++ .bucket l map :: B) := by simp

theorem OnPage.holds (ho : OnPage c h abs j ext A B l map P Q) :
    Holds c ext (A ++ .bucket l map :: B) :=
  ho.inv.holds _ (List.mem_of_getElem? ho.pair)

theorem OnPage.valid (ho : OnPage c h abs j ext A B l map P Q) : Seg.Valid (.bucket l map) :=
  ho.holds.valid _ (by simp)

theorem OnPage.onList (ho : OnPage c h abs j ext A B l map P Q) :
    OnList h ext l (P ++ ((cover Seg.pages A : ℕ) : ℤ) :: Q) :=
  ho.ring ▸ ho.inv.onList ho.pair ho.valid.1 fun _ => ho.home

theorem OnPage.names (ho : OnPage c h abs j ext A B l map P Q) {u : Use} (h₁ : u.ext = ext.mem)
    (h₂ : u.page ∈ P ++ ((cover Seg.pages A : ℕ) : ℤ) :: Q) (h₃ : u.log2size = l) :
    abs.Names u :=
  ho.inv.names ho.pair ho.valid.1 (fun _ => ho.home) h₁ (ho.ring ▸ h₂) h₃

theorem exists_onPage (hi : HeapInv c h abs) (hj : abs.pairs[j]? = some (ext, A ++ .bucket l map :: B)) :
    ∃ P Q, OnPage c h abs j ext A B l map P Q := by
  have hold : Holds c ext (A ++ .bucket l map :: B) := hi.holds _ (List.mem_of_getElem? hj)
  have hb : Bucketed l := (hold.valid (.bucket l map) (by simp)).1
  have hpage : Pages (A ++ .bucket l map :: B) (l - 4) (cover Seg.pages A : ℕ) :=
    ⟨cover Seg.pages A, map, by simp [hb.index.2], rfl⟩
  obtain ⟨hhome, hmem⟩ := (hi.rings.mem _ hb.index.1 j _ hj _).mp hpage
  obtain ⟨P, Q, hring⟩ := List.append_of_mem hmem
  exact ⟨P, Q, hi, hj, hhome.symm, hring⟩

/-- A slot of a bucket page is found in its page. -/
theorem free_unfold (ho : OnPage c h abs j ext A B l map P Q) (hk : k < slots l) :
    evlFreeBlockUnlocked c h
      (ext.membase + 512 * (cover Seg.pages A : ℤ) + (k * 2 ^ l : ℕ)) =
        (freeBucketed c h ext (cover Seg.pages A : ℕ) k l >>= fun x =>
          .ok ((x.1.setExtent j x.2).withUsed (sizeSub x.1.usedSize (2 ^ l)), 0)) := by
  have hb := ho.valid.1
  have hp := ho.holds.hasPage (bucket_tile ..)
  obtain ⟨htype, -, -⟩ := ho.holds.described _ (bucket_tile ..)
  have hslot := slot_bounds hb hk
  have hbounds := place_bounds (bucket_tile A B l map)
  have hlimit := ho.holds.limit
  have htotal := ho.holds.total
  have hpos : 0 < 2 ^ l := Nat.two_pow_pos l
  simp only [Seg.pages, Nat.zero_add] at htype hbounds
  have hfind := ho.inv.findExtent (a := ext.membase + 512 * (cover Seg.pages A : ℤ) +
    (k * 2 ^ l : ℕ)) ho.pair ⟨by omega, by omega⟩
  have hoff : (ext.membase + 512 * (cover Seg.pages A : ℤ) + (k * 2 ^ l : ℕ) - ext.membase).toNat =
      512 * cover Seg.pages A + k * 2 ^ l := by omega
  have hdiv : (512 * cover Seg.pages A + k * 2 ^ l) / 512 = cover Seg.pages A := by omega
  have hmod : (512 * cover Seg.pages A + k * 2 ^ l) % 512 = k * 2 ^ l := by omega
  have hvalid : pageIsValid c ext (cover Seg.pages A) = .ok true := pageIsValid_bucket hb hp htype
  have hlist := hb.ne_pageList
  have hassert : AvlTree.assert c.debug (2 ^ l < 512) = .ok () := by
    have hlt : 2 ^ l < 512 := Nat.pow_lt_pow_right (by decide) hb.2
    simp [AvlTree.assert, hlt]
  have hblock : k * 2 ^ l % 2 ^ l = 0 := Nat.mul_mod_left ..
  have hindex : (k * 2 ^ l) >>> l = k := by
    rw [Nat.shiftRight_eq_div_pow, Nat.mul_div_cancel _ hpos]
  simp only [evlFreeBlockUnlocked, hfind, hoff, hdiv, hmod, hvalid, ok_bind, if_true, entry_eq hp,
    htype, hlist, if_false, Nat.one_shiftLeft, hassert, hblock, ne_eq, not_true_eq_false, hindex]
  rfl

/-- The map of the page is written first. -/
theorem freeBucketed_unfold (ho : OnPage c h abs j ext A B l map P Q) (hk : k ∈ busy l map) :
    ∃ m, LinksEq ext.pagemap m ∧ (∀ q, q ≠ (cover Seg.pages A : ℤ) → m q = ext.pagemap q) ∧
      m (cover Seg.pages A : ℕ) = (ext.pagemap (cover Seg.pages A : ℕ)).setMap (cleared map k) ∧
      freeBucketed c h ext (cover Seg.pages A : ℕ) k l =
        if busy l (cleared map k) = [] then
          removePage h (ext.withPagemap m) (cover Seg.pages A : ℕ) l >>= fun x =>
            releasePageRange c x.2 (x.2.membase + 512 * (cover Seg.pages A : ℤ)) 512 >>= fun y =>
              .ok (x.1, y)
        else if map = BitVec.allOnes 32 then
          movePageFront h (ext.withPagemap m) (cover Seg.pages A : ℕ) l
        else .ok (h, ext.withPagemap m) := by
  obtain ⟨hb, hpad, -⟩ := ho.valid
  have hp := ho.holds.hasPage (bucket_tile ..)
  obtain ⟨-, hmap, hshift⟩ := ho.holds.described _ (bucket_tile ..)
  have hidle := busy_eq_nil hb (padded_clearBit hb (mem_busy.mp hk).1 hpad)
  refine ⟨Function.update ext.pagemap _ ((ext.pagemap _).setMap (cleared map k)),
    linksEq_update rfl rfl, fun q hq => Function.update_of_ne hq .., Function.update_self .., ?_⟩
  simp only [freeBucketed, entry_eq hp, ok_bind, setMap_eq hp, hmap, pagenrToAddr,
    hshift.trans (mul_comm ..)]
  exact if_congr hidle rfl rfl

/-- The last block of a page is freed. -/
theorem free_last (ho : OnPage c h abs j ext A B l map P Q) (hk : k ∈ busy l map)
    (hlast : busy l (cleared map k) = []) :
    ∃ A' L R B' ext' h' abs', A = A' ++ (Option.map Seg.free L).toList ∧
      B = (Option.map Seg.free R).toList ++ B' ∧
      abs' = (abs.set j ext' (A' ++ .free (L.getD 0 + 1 + R.getD 0) :: B')).relink (l - 4) j
        (P ++ Q) ∧
      evlFreeBlockUnlocked c h
        (ext.membase + 512 * (cover Seg.pages A : ℤ) + (k * 2 ^ l : ℕ)) = .ok (h', 0) ∧
      HeapInv c h' abs' ∧
      Returns h abs (ext.membase + 512 * (cover Seg.pages A : ℤ) + (k * 2 ^ l : ℕ), 2 ^ l)
        h' abs' := by
  obtain ⟨m, hlinks, hout, hself, hunfold⟩ := freeBucketed_unfold ho hk
  obtain ⟨hb, hpad, -⟩ := ho.valid
  obtain ⟨h₂, ext₂, hremove, hr⟩ := removePage_spec (ho.onList.relabel hlinks)
  have hcontent := hr.content
  rw [withPagemap_pagemap] at hcontent
  have hext₂ : ext₂ = ext.withPagemap ext₂.pagemap := hr.extent
  obtain ⟨A', L, R, B', ext', hA, hB, hrun, hplace, hlinks', hold'⟩ := ho.holds.release (s := .bucket l map)
    (m := ext₂.pagemap) trivial fun q hq => by
      have hne : (q : ℤ) ≠ (cover Seg.pages A : ℤ) := by
        simp only [Seg.pages] at hq
        omega
      rw [hcontent.type, hcontent.map, hout q hne]
      exact ⟨rfl, rfl⟩
  rw [← hext₂] at hrun
  let h₃ := (h₂.setExtent j ext').withUsed (sizeSub h₂.usedSize (2 ^ l))
  have hext : h₃.extents = h.extents.set j ext' := congrArg (List.set · j ext') hr.extents
  have husable : h₃.usableSize = h.usableSize := hr.usableSize
  have hbuckets : h₃.buckets = Function.update h.buckets (l - 4) ((P ++ Q).head?.getD (-1)) :=
    hr.buckets
  refine ⟨A', L, R, B', ext', h₃, _, hA, hB, rfl, ?_, ?_, ?_, ?_, ?_⟩
  · rw [free_unfold ho (mem_busy.mp hk).1, hunfold, if_pos hlast, hremove]
    have hbase : ext₂.membase = ext.membase := by rw [hext₂]; rfl
    have hrun' : releasePageRange c ext₂ (ext.membase + 512 * (cover Seg.pages A : ℤ)) 512 =
        .ok ext' := hrun
    simp only [ok_bind, hbase, hrun']
    rfl
  · have hnodup := ho.onList.ring.nodup
    have hpages {i : ℕ} {y : ℤ} : Pages (A ++ .bucket l map :: B) i y ↔
        Pages (A' ++ .free (L.getD 0 + 1 + R.getD 0) :: B') i y ∨
          i + 4 = l ∧ y = (cover Seg.pages A : ℕ) := by
      rw [hA, hB, pages_release]
      simp [Seg.pages]
    have hcover : cover Seg.pages A = cover Seg.pages A' + L.getD 0 := by
      rw [hA, cover_append, (frees_option 0 0 L).2.1]
    refine ho.inv.relinked (S := P ++ ((cover Seg.pages A : ℕ) : ℤ) :: Q) ho.pair hb
      (fun _ => ho.home) hplace hold' hext husable hbuckets ?_ (fun y hy => ?_)
      (fun y hy => .inl (ho.ring ▸ hy)) (fun y => ?_) fun i _ hil y => ?_
    · rw [hlinks'.next, hlinks'.prev]
      exact hr.ring
    · have hne : y ≠ (cover Seg.pages A : ℕ) := fun heq => hy (by simp [heq])
      rw [SameLinks, hlinks'.next, hlinks'.prev, nextOf, prevOf, hcontent.frame y hy, hout y hne]
      exact ⟨rfl, rfl⟩
    · have hnone : ¬ Pages (A' ++ .free (L.getD 0 + 1 + R.getD 0) :: B') (l - 4)
          (cover Seg.pages A : ℕ) :=
        not_pages_free (q := cover Seg.pages A) (by omega) (by omega) rfl
      have hold : Pages (A ++ .bucket l map :: B) (l - 4) y ↔ _ :=
        ho.inv.mem_ring ho.pair hb fun _ => ho.home
      rw [hpages, ho.ring, hb.index.2] at hold
      have hx : ((cover Seg.pages A : ℕ) : ℤ) ∉ P ++ Q :=
        (List.nodup_cons.mp (List.perm_middle.nodup hnodup)).1
      have hmid : y ∈ P ++ ((cover Seg.pages A : ℕ) : ℤ) :: Q ↔
          y = (cover Seg.pages A : ℕ) ∨ y ∈ P ++ Q := by simp [or_left_comm]
      rw [hmid] at hold
      constructor
      · intro hy
        exact (hold.mp (.inl hy)).resolve_left fun heq => hnone (heq ▸ hy)
      · intro hy
        exact (hold.mpr (.inr hy)).resolve_right fun heq => hx (heq.2 ▸ hy)
    · have hne : i + 4 ≠ l := by omega
      rw [hpages]
      simp [hne]
  · refine Abs.blocks_unset ho.pair ?_
    have hone : (busy l map).Perm [k] := by
      have := busy_clear hb hk
      rw [← cleared, hlast] at this
      exact this
    have hperm : (blocksOf ext.membase 0 (A' ++ (Option.map Seg.free L).toList ++
        .bucket l map :: ((Option.map Seg.free R).toList ++ B'))).Perm _ :=
      blocksOf_release ext.membase
    rw [← hA, ← hB, Seg.blocks] at hperm
    rw [hplace.membase]
    exact hperm.trans ((hone.map _).append_right _)
  · exact congrArg (sizeSub · _) hr.usedSize
  · intro u hu
    rcases hr.uses u hu with hu | ⟨h₁, h₂, h₃⟩
    · exact .inl hu
    · exact .inr (ho.names h₁ h₂ h₃)

theorem mem_toFront {A B : List ℤ} {x y : ℤ} : y ∈ toFront A x B ↔ y ∈ A ++ x :: B := by
  cases A with
  | nil => rfl
  | cons a A =>
    simp only [toFront, List.mem_cons, List.mem_append, List.cons_append, List.not_mem_nil]
    tauto

/-- The list after a block of the page `x` was freed. -/
def rotatePartial (P : List ℤ) (x : ℤ) (Q : List ℤ) (map : BitVec 32) : List ℤ :=
  if map = BitVec.allOnes 32 then toFront P x Q else P ++ x :: Q

theorem mem_rotatePartial {x y : ℤ} : y ∈ rotatePartial P x Q map ↔ y ∈ P ++ x :: Q := by
  unfold rotatePartial
  split_ifs
  · exact mem_toFront
  · rfl

/-- A block of a page is freed which has others. -/
theorem free_slot (ho : OnPage c h abs j ext A B l map P Q) (hk : k ∈ busy l map)
    (hmore : busy l (cleared map k) ≠ []) :
    ∃ ext' h' abs', abs' = (abs.set j ext' (A ++ .bucket l (cleared map k) :: B)).relink (l - 4) j
        (rotatePartial P (cover Seg.pages A : ℕ) Q map) ∧
      evlFreeBlockUnlocked c h
        (ext.membase + 512 * (cover Seg.pages A : ℤ) + (k * 2 ^ l : ℕ)) = .ok (h', 0) ∧
      HeapInv c h' abs' ∧
      Returns h abs (ext.membase + 512 * (cover Seg.pages A : ℤ) + (k * 2 ^ l : ℕ), 2 ^ l)
        h' abs' := by
  obtain ⟨m, hlinks, hout, hself, hunfold⟩ := freeBucketed_unfold ho hk
  obtain ⟨hb, hpad, -⟩ := ho.valid
  have hl := ho.onList.relabel hlinks
  obtain ⟨h₂, ext₂, hrun, hr⟩ : ∃ h₂ ext₂,
      (if map = BitVec.allOnes 32 then
        movePageFront h (ext.withPagemap m) (cover Seg.pages A : ℕ) l
      else .ok (h, ext.withPagemap m)) = .ok (h₂, ext₂) ∧
      Relinks h (ext.withPagemap m) l (P ++ ((cover Seg.pages A : ℕ) : ℤ) :: Q)
        (rotatePartial P (cover Seg.pages A : ℕ) Q map)
        (P ++ ((cover Seg.pages A : ℕ) : ℤ) :: Q) h₂ ext₂ := by
    by_cases hfull : map = BitVec.allOnes 32
    · obtain ⟨h₂, ext₂, hrun, hr⟩ := movePageFront_spec hl
      exact ⟨h₂, ext₂, by rw [if_pos hfull, hrun], by rwa [rotatePartial, if_pos hfull]⟩
    · refine ⟨h, ext.withPagemap m, by rw [if_neg hfull], ?_⟩
      rw [rotatePartial, if_neg hfull]
      exact .refl hl
  obtain ⟨hplace, hold', hframe⟩ := hr.remap ho.holds
    ⟨hb, padded_clearBit hb (mem_busy.mp hk).1 hpad, hmore⟩ hout hself (by simp)
  let h₃ := (h₂.setExtent j ext₂).withUsed (sizeSub h₂.usedSize (2 ^ l))
  have hext : h₃.extents = h.extents.set j ext₂ := congrArg (List.set · j ext₂) hr.extents
  have husable : h₃.usableSize = h.usableSize := hr.usableSize
  have hbuckets : h₃.buckets = Function.update h.buckets (l - 4)
      ((rotatePartial P (cover Seg.pages A : ℕ) Q map).head?.getD (-1)) := hr.buckets
  refine ⟨ext₂, h₃, _, rfl, ?_, ?_, ?_, ?_, ?_⟩
  · rw [free_unfold ho (mem_busy.mp hk).1, hunfold, if_neg hmore, hrun]
    rfl
  · refine ho.inv.relinked (S := P ++ ((cover Seg.pages A : ℕ) : ℤ) :: Q) ho.pair hb
      (fun _ => ho.home) hplace hold' hext husable hbuckets hr.ring hframe
      (fun y hy => .inl (ho.ring ▸ hy)) (fun y => ?_) fun i _ _ y => pages_remap
    rw [pages_remap, ho.inv.mem_ring ho.pair hb fun _ => ho.home, mem_rotatePartial, ho.ring]
  · refine Abs.blocks_unset ho.pair ?_
    rw [hplace.membase]
    exact blocksOf_remap ext.membase (busy_clear hb hk)
  · exact congrArg (sizeSub · _) hr.usedSize
  · intro u hu
    rcases hr.uses u hu with hu | ⟨h₁, h₂, h₃⟩
    · exact .inl hu
    · exact .inr (ho.names h₁ h₂ h₃)

/-- What a free does to the layouts and the rings. -/
inductive Freed (abs : Abs) : ℤ × ℕ → Abs → Prop
  | range {j n : ℕ} {ext : HeapExtent} {A B : List Seg} {L R : Option ℕ} (ext' : HeapExtent) :
      abs.pairs[j]? = some (ext, A ++ (Option.map Seg.free L).toList ++
        .multi n :: ((Option.map Seg.free R).toList ++ B)) →
      Freed abs (ext.membase + 512 * (cover Seg.pages (A ++ (Option.map Seg.free L).toList) : ℤ),
          512 * n)
        (abs.set j ext' (A ++ .free (L.getD 0 + n + R.getD 0) :: B))
  | last {j l k : ℕ} {ext : HeapExtent} {A B : List Seg} {map : BitVec 32} {L R : Option ℕ}
      {P Q : List ℤ} (ext' : HeapExtent) :
      abs.pairs[j]? = some (ext, A ++ (Option.map Seg.free L).toList ++
        .bucket l map :: ((Option.map Seg.free R).toList ++ B)) →
      k ∈ busy l map → busy l (cleared map k) = [] → abs.home (l - 4) = j →
      abs.ring (l - 4) =
        P ++ ((cover Seg.pages (A ++ (Option.map Seg.free L).toList) : ℕ) : ℤ) :: Q →
      Freed abs (ext.membase + 512 * (cover Seg.pages (A ++ (Option.map Seg.free L).toList) : ℤ) +
          (k * 2 ^ l : ℕ), 2 ^ l)
        ((abs.set j ext' (A ++ .free (L.getD 0 + 1 + R.getD 0) :: B)).relink (l - 4) j (P ++ Q))
  | slot {j l k : ℕ} {ext : HeapExtent} {A B : List Seg} {map : BitVec 32} {P Q : List ℤ}
      (ext' : HeapExtent) :
      abs.pairs[j]? = some (ext, A ++ .bucket l map :: B) →
      k ∈ busy l map → busy l (cleared map k) ≠ [] → abs.home (l - 4) = j →
      abs.ring (l - 4) = P ++ ((cover Seg.pages A : ℕ) : ℤ) :: Q →
      Freed abs (ext.membase + 512 * (cover Seg.pages A : ℤ) + (k * 2 ^ l : ℕ), 2 ^ l)
        ((abs.set j ext' (A ++ .bucket l (cleared map k) :: B)).relink (l - 4) j
          (rotatePartial P (cover Seg.pages A : ℕ) Q map))

/-- `evl_free_block_unlocked` takes back every block that was handed out. -/
theorem free_spec (hi : HeapInv c h abs) {x : ℤ × ℕ} (hx : x ∈ abs.blocks) :
    ∃ h' abs', evlFreeBlockUnlocked c h x.1 = .ok (h', 0) ∧ Freed abs x abs' ∧
      HeapInv c h' abs' ∧ Returns h abs x h' abs' := by
  obtain ⟨⟨ext, segs⟩, hpair, hblock⟩ := List.mem_flatMap.mp hx
  obtain ⟨j, hj⟩ := List.getElem?_of_mem hpair
  obtain ⟨⟨p, s⟩, hplace, hs⟩ := List.mem_flatMap.mp hblock
  obtain ⟨A, B, rfl, rfl⟩ := mem_place.mp hplace
  simp only [Nat.zero_add] at hs
  cases s with
  | free n => simp [Seg.blocks] at hs
  | multi n =>
    obtain rfl := List.mem_singleton.mp hs
    obtain ⟨A', L, R, B', ext', h', abs', rfl, rfl, rfl, hrun, hi', hret⟩ := free_multi hi hj
    exact ⟨h', _, hrun, .range ext' hj, hi', hret⟩
  | bucket l map =>
    obtain ⟨k, hk, rfl⟩ := List.mem_map.mp hs
    obtain ⟨P, Q, ho⟩ := exists_onPage hi hj
    by_cases hlast : busy l (cleared map k) = []
    · obtain ⟨A', L, R, B', ext', h', abs', rfl, rfl, rfl, hrun, hi', hret⟩ := free_last ho hk hlast
      exact ⟨h', _, hrun, .last ext' hj hk hlast ho.home ho.ring, hi', hret⟩
    · obtain ⟨ext', h', abs', rfl, hrun, hi', hret⟩ := free_slot ho hk hlast
      exact ⟨h', _, hrun, .slot ext' hj hk hlast ho.home ho.ring, hi', hret⟩

end Blocks

end Libevl.Heap
