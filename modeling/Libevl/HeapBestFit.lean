import Libevl.HeapSafety

/-!
# Which pages a request gets

The free pages of an extent are those of its linked ranges. A request for pages
takes the top of the smallest maximal run of free pages that is large enough, and
fails only when no run is.
-/
namespace Libevl.Heap
open AvlTree BinaryTree TreePath Tiling Transition

/-- The page `p` of the pool lies in a linked range. -/
def FreePage (ext : HeapExtent) (p : ℕ) : Prop :=
  (p : ℤ) < ext.nrpages ∧ ∃ as, Lists ext.addrTree as ∧ ∃ a ∈ as,
    a ≤ ext.membase + 512 * p ∧ ext.membase + 512 * (p + 1) ≤ a + ext.size a

/-- The pages from `pg` on are the top of a best fit for `k` pages, and no other page changes. -/
def TopOfBestFit (ext ext' : HeapExtent) (pg k : ℕ) : Prop :=
  (∃ p n, MaximalRun (FreePage ext) p n ∧ k ≤ n ∧ pg = p + (n - k) ∧
    ∀ q m, MaximalRun (FreePage ext) q m → k ≤ m → n ≤ m) ∧
  ∀ q, FreePage ext' q ↔ FreePage ext q ∧ ¬ (pg ≤ q ∧ q < pg + k)

/-- What `reserve_page_range` does with a request for `k` pages. -/
def BestFit (c : Cfg) (ext : HeapExtent) (k : ℕ) : Prop :=
  ∃ ext' pg, reservePageRange c ext (512 * k) = .ok (ext', pg) ∧
    (pg = -1 ↔ ¬ ∃ p, Run (FreePage ext) p k) ∧
    (pg ≠ -1 → ∃ p : ℕ, pg = p ∧ TopOfBestFit ext ext' p k)

section Tiles

variable {c : Cfg} {ext ext' : HeapExtent} {segs A B : List Seg} {is : List (ℕ × ℕ)} {p q n k : ℕ}

/-- The range of `i.2` pages from `i.1` on. -/
def tileRange (base : ℤ) (i : ℕ × ℕ) : ℤ × ℕ := (base + 512 * i.1, 512 * i.2)

def freeAt : ℕ × Seg → Option (ℕ × ℕ)
  | (p, .free n) => some (p, n)
  | (_, .multi _) => none
  | (_, .bucket _ _) => none

/-- The free tiles from the page `p` on, with their lengths. -/
def freeTiles (p : ℕ) (segs : List Seg) : List (ℕ × ℕ) :=
  (place Seg.pages p segs).filterMap freeAt

@[simp] theorem freeTiles_append :
    freeTiles p (A ++ B) = freeTiles p A ++ freeTiles (p + cover Seg.pages A) B := by
  simp [freeTiles]

@[simp] theorem freeTiles_free : freeTiles p (.free n :: B) = (p, n) :: freeTiles (p + n) B := rfl

theorem frees_eq_map (base : ℤ) (p : ℕ) (segs : List Seg) :
    frees base p segs = (freeTiles p segs).map (tileRange base) := by
  rw [frees, freeTiles, List.map_filterMap]
  congr 1
  ext1 ⟨q, t⟩
  cases t <;> rfl

theorem freeTiles_remain : freeTiles p (remain n k) = if n = k then [] else [(p, n - k)] := by
  unfold remain
  split_ifs
  · rfl
  · rfl

theorem freeTiles_bounds {i : ℕ × ℕ} (hi : i ∈ freeTiles p segs) :
    p ≤ i.1 ∧ i.1 + i.2 ≤ p + cover Seg.pages segs := by
  obtain ⟨⟨q, t⟩, hq, ht⟩ := List.mem_filterMap.mp hi
  have hb := place_bounds hq
  cases t with
  | free n =>
    obtain rfl := Option.some.inj ht
    exact hb
  | multi n => cases ht
  | bucket l map => cases ht

/-- The linked ranges are the runs of free pages. -/
theorem Ranges.covers (h : Ranges ext (is.map (tileRange ext.membase)))
    (hb : ∀ i ∈ is, ((i.1 + i.2 : ℕ) : ℤ) ≤ ext.nrpages) : Covers (FreePage ext) is where
  mem x := by
    have haddr := h.addr
    constructor
    · rintro ⟨-, as, has, a, ha, h₁, h₂⟩
      obtain rfl := has.unique haddr
      obtain ⟨r, hr, rfl⟩ := List.mem_map.mp ha
      have hsize := h.sizes r hr
      obtain ⟨i, hi, rfl⟩ := List.mem_map.mp hr
      rw [hsize] at h₂
      simp only [tileRange] at h₁ h₂
      exact ⟨i, hi, by omega, by omega⟩
    · rintro ⟨i, hi, h₁, h₂⟩
      have hr := List.mem_map_of_mem (f := tileRange ext.membase) hi
      have hsize := h.sizes _ hr
      have hbound := hb i hi
      refine ⟨by omega, _, haddr, (tileRange ext.membase i).1, List.mem_map_of_mem hr, ?_⟩
      rw [hsize]
      simp only [tileRange]
      omega
  apart := by
    have happ := h.apart
    rw [List.pairwise_map] at happ
    refine happ.imp fun hij => ?_
    simp only [tileRange] at hij
    omega
  pos i hi := by
    have hpos := (h.pos _ (List.mem_map_of_mem (f := tileRange ext.membase) hi)).1
    simp only [tileRange] at hpos
    omega

theorem Holds.covers (h : Holds c ext segs) : Covers (FreePage ext) (freeTiles 0 segs) := by
  refine (frees_eq_map ext.membase 0 segs ▸ h.ranges).covers fun i hi => ?_
  have hb := (freeTiles_bounds hi).2
  have ht := h.total
  omega

/-- The pages of a free tile are taken away at its top. -/
theorem freePage_reserved (h : Holds c ext (A ++ .free n :: B)) (hk : k ≤ n)
    (hsame : SamePages ext ext')
    (hr : Ranges ext' (frees ext.membase 0 (A ++ remain n k) ++
      frees ext.membase (cover Seg.pages A + n) B)) :
    FreePage ext' q ↔ FreePage ext q ∧
      ¬ (cover Seg.pages A + (n - k) ≤ q ∧ q < cover Seg.pages A + (n - k) + k) := by
  have htotal := h.total
  simp only [cover_append, cover_cons, Seg.pages] at htotal
  have hA {i : ℕ × ℕ} (hi : i ∈ freeTiles 0 A) : i.1 + i.2 ≤ cover Seg.pages A := by
    simpa using (freeTiles_bounds hi).2
  have hB {i : ℕ × ℕ} (hi : i ∈ freeTiles (cover Seg.pages A + n) B) :=
    freeTiles_bounds hi
  have hmem {i : ℕ × ℕ} : i ∈ freeTiles 0 (A ++ remain n k) ++ freeTiles (cover Seg.pages A + n) B ↔
      i ∈ freeTiles 0 A ∨ (i = (cover Seg.pages A, n - k) ∧ n ≠ k) ∨
        i ∈ freeTiles (cover Seg.pages A + n) B := by
    rw [freeTiles_append, freeTiles_remain, List.mem_append, List.mem_append, or_assoc, Nat.zero_add]
    split_ifs with hnk <;> simp [hnk]
  rw [frees_eq_map, frees_eq_map, ← List.map_append, ← hsame.membase] at hr
  have hcov' := hr.covers fun i hi => by
    rw [hsame.nrpages, htotal]
    rcases hmem.mp hi with hi | ⟨rfl, -⟩ | hi
    · have := hA hi
      omega
    · simp only
      omega
    · have := hB hi
      omega
  have hsplit : freeTiles 0 (A ++ .free n :: B) =
      freeTiles 0 A ++ (cover Seg.pages A, n) :: freeTiles (cover Seg.pages A + n) B := by
    simp
  rw [hcov'.mem, h.covers.mem, hsplit]
  constructor
  · rintro ⟨i, hi, h₁, h₂⟩
    rcases hmem.mp hi with hi | ⟨rfl, -⟩ | hi
    · have := hA hi
      exact ⟨⟨i, by simp [hi], h₁, h₂⟩, by omega⟩
    · simp only at h₁ h₂
      exact ⟨⟨(cover Seg.pages A, n), by simp, h₁, by simp only; omega⟩, by omega⟩
    · have := hB hi
      exact ⟨⟨i, by simp [hi], h₁, h₂⟩, by omega⟩
  · rintro ⟨⟨i, hi, h₁, h₂⟩, hq⟩
    rcases List.mem_append.mp hi with hi | hi
    · exact ⟨i, hmem.mpr (.inl hi), h₁, h₂⟩
    rcases List.mem_cons.mp hi with rfl | hi
    · simp only at h₁ h₂
      exact ⟨(cover Seg.pages A, n - k), hmem.mpr (.inr (.inl ⟨rfl, by omega⟩)), h₁, by
        simp only
        omega⟩
    · exact ⟨i, hmem.mpr (.inr (.inr hi)), h₁, h₂⟩

theorem mem_of_freeTiles {i : ℕ × ℕ} (hi : i ∈ freeTiles p segs) : .free i.2 ∈ segs := by
  obtain ⟨⟨q, t⟩, hq, ht⟩ := List.mem_filterMap.mp hi
  cases t with
  | free n =>
    obtain rfl := Option.some.inj ht
    exact mem_of_place hq
  | multi n => cases ht
  | bucket l map => cases ht

/-- The search in the size tree finds the best fit of the layout. -/
theorem Holds.bestFit (h : Holds c ext segs) (hk : 0 < k) (hk' : 512 * k < 2 ^ 64)
    (hfit : ext.Fits (512 * k)) : BestFit c ext k := by
  have hcov := h.covers
  rcases h.reserve hk hk' hfit with
    ⟨hnone, hfind⟩ | ⟨A, n, B, ext', rfl, hkn, hbest, -, hrun, hsame, hranges⟩
  · refine ⟨ext, -1, reservePageRange_none hfind, iff_of_true rfl ?_, fun hne => absurd rfl hne⟩
    rintro ⟨p, hp⟩
    obtain ⟨i, hi, h₁, h₂⟩ := (hcov.run_iff hk).mp hp
    have := hnone i.2 (mem_of_freeTiles hi)
    omega
  · have htile : (cover Seg.pages A, n) ∈ freeTiles 0 (A ++ .free n :: B) := by simp
    have hrun' : Run (FreePage ext) (cover Seg.pages A) k :=
      (hcov.run_iff hk).mpr ⟨_, htile, le_rfl, by simp only; omega⟩
    refine ⟨ext', _, hrun, iff_of_false (by omega) (not_not.mpr ⟨_, hrun'⟩),
      fun _ => ⟨_, rfl, ⟨_, n, hcov.maximal_iff.mpr htile, hkn, rfl, fun q m hm hkm => ?_⟩,
        fun q => freePage_reserved h hkn hsame hranges⟩⟩
    exact hbest m (mem_of_freeTiles (hcov.maximal_iff.mp hm)) hkm

end Tiles

section Requests

variable {c : Cfg} {s : State} {ext : HeapExtent} {k p : ℕ}

/-- In every run whose requests the heap handles, a request for pages gets a best fit, and only
fails when there is none. -/
theorem reserve_bestFit (h : Reach (fun s op s' => Meets c s op ∧ Step c s op s') (Initial c) s)
    (hext : ext ∈ s.heap.extents) (hk : 0 < k) (hk' : 512 * k < 2 ^ 64)
    (hfit : ext.Fits (512 * k)) : BestFit c ext k := by
  obtain ⟨abs, hi, -⟩ := reach_inv h
  rw [hi.extents] at hext
  obtain ⟨x, hx, rfl⟩ := List.mem_map.mp hext
  exact (hi.holds x hx).bestFit hk hk' hfit

/-- Four pages, the third one in use: the last one is a best fit for one page. -/
theorem reserve_bestFit_gap : ∃ s, (newHeap ⟨true, true⟩ 4 >>= fun s => runs (exec ⟨true, true⟩) s
      [.alloc 512, .alloc 16, .free ⟨5840, 512⟩]) = some s ∧
    ∃ ext ∈ s.heap.extents, BestFit ⟨true, true⟩ ext 1 := by
  have hrun : ((newHeap ⟨true, true⟩ 4 >>= fun s => runs (exec ⟨true, true⟩) s
      [.alloc 512, .alloc 16, .free ⟨5840, 512⟩]).map fun s =>
        (s.live, s.heap.extents.isEmpty)) = some ([⟨5328, 16⟩], false) := by decide
  obtain ⟨s, hs, hval⟩ := Option.map_eq_some_iff.mp hrun
  obtain ⟨-, hne⟩ := Prod.mk.inj hval
  obtain ⟨ext, hext⟩ := List.exists_mem_of_ne_nil _ (List.isEmpty_eq_false_iff.mp hne)
  have hsmall : ∀ op ∈ [Op.alloc 512, .alloc 16, .free ⟨5840, 512⟩], op.small = true := by decide
  have hreach : Reach (fun s op s' => Single ⟨true, true⟩ s op ∧ Step ⟨true, true⟩ s op s')
      (Initial ⟨true, true⟩) s :=
    reach_replay hs (fun _ hs₀ => newHeap_initial hs₀ (by decide))
      fun op hop _ _ h => ⟨single_of_small rfl (hsmall op hop), h⟩
  exact ⟨s, hs, ext, hext, reserve_bestFit (reach_meets hreach) hext Nat.one_pos (by decide)
    (HeapExtent.fits_of_lt (by decide))⟩

/-- Two ranges are linked, of which the first one overlaps the second. -/
def Overlapped (ext : HeapExtent) : Prop :=
  ext.membase = 4288 ∧ ext.nrpages = 2 ∧ ext.size 4288 = 2 ^ 41 + 512 ∧
    ext.addrTree.top = some (.node 4288) ∧
    ext.addrTree.cell (.node 4288) = ⟨1, 1, none, some .anchor, some (.node 4800)⟩ ∧
    ext.addrTree.cell (.node 4800) = ⟨1, 0, none, some (.node 4288), none⟩ ∧
    ext.addrTree.head = some (.node 4288) ∧ ext.addrTree.tail = some (.node 4800) ∧
    ext.addrTree.count = 2 ∧ ext.addrTree.height = 2

instance (ext : HeapExtent) : Decidable (Overlapped ext) := by
  unfold Overlapped
  infer_instance

theorem Overlapped.free (h : Overlapped ext) (hp : p < 2) : FreePage ext p := by
  obtain ⟨hbase, hpages, hsize, htop, hcell, hcell', hhead, htail, hcount, hheight⟩ := h
  have hlists : Lists ext.addrTree [4288, 4800] :=
    ⟨.node 4288 .nil (.node 4800 .nil .nil), ⟨⟨⟨htop, ⟨hcell, trivial, hcell', trivial, trivial⟩,
      by simp [TreePath.Balanced, balance, height]⟩, by decide, hheight, hhead, htail⟩, hcount⟩, rfl⟩
  refine ⟨by omega, _, hlists, 4288, List.mem_cons_self, ?_⟩
  rw [hsize, hbase]
  push_cast
  omega

/-- After a block of 2^64 - 2^41 + 512 bytes was granted and freed, both pages are free, and a
request for two pages fails. -/
theorem not_bestFit_huge : ¬ ∀ (c : Cfg) (s : State),
    Reach (fun s op s' => Step c s op s') (Initial c) s →
      ∀ ext ∈ s.heap.extents, ∀ k, 0 < k → 512 * k ≤ s.heap.usableSize → BestFit c ext k := by
  intro h
  have hrun : ((newHeap ⟨true, false⟩ 2 >>= fun s => runs (exec ⟨true, false⟩) s
      [.alloc (2 ^ 64 - 2 ^ 41 + 512), .free ⟨4800, 2 ^ 64 - 2 ^ 41 + 512⟩]).map fun s =>
        decide (s.heap.usableSize = 1024 ∧ s.heap.extents ≠ [] ∧ ∀ ext ∈ s.heap.extents,
          Overlapped ext ∧
            (reservePageRange ⟨true, false⟩ ext 1024).toOption.map Prod.snd = some (-1))) =
      some true := by decide
  obtain ⟨s, hs, hval⟩ := Option.map_eq_some_iff.mp hrun
  obtain ⟨husable, hne, hexts⟩ := of_decide_eq_true hval
  have hreach : Reach (fun s op s' => Step ⟨true, false⟩ s op s') (Initial ⟨true, false⟩) s :=
    reach_replay hs (fun _ hs₀ => newHeap_initial hs₀ (by decide)) fun _ _ _ _ h => h
  obtain ⟨ext, hext⟩ := List.exists_mem_of_ne_nil _ hne
  obtain ⟨hover, hreserve⟩ := hexts ext hext
  obtain ⟨ext', pg, hpg, hiff, -⟩ := h _ _ hreach ext hext 2 (by decide) (by omega)
  rw [hpg] at hreserve
  exact hiff.mp (Option.some.inj hreserve) ⟨0, fun x _ hx => hover.free (by omega)⟩

end Requests

end Libevl.Heap
