import Libevl.HeapInvariant

/-!
# Requests

The size of a request is rounded to a power of two below the page size, and to
whole pages from there on. The signed comparison of sizes breaks for requests
above 2^63: the root of the size tree then decides what is found.
-/
namespace Libevl.Heap
open AvlTree Tiling

section Sizes

variable {size l : ℕ}

theorem alignTo_eq {n al : ℕ} (h : n + (al - 1) < 2 ^ 64) :
    alignTo n al = n + (al - 1) - (n + (al - 1)) % al := by
  rw [alignTo, sizeAdd_of_lt h]

/-- Page multiples are aligned. -/
theorem alignTo_pages {k : ℕ} (h : 512 * k + 511 < 2 ^ 64) : alignTo (512 * k) 512 = 512 * k := by
  rw [alignTo_eq (by omega)]
  omega

theorem alignTo_bucket (hl : Bucketed l) : alignTo (2 ^ l) 512 = 512 := by
  rcases hl.cases with rfl | rfl | rfl | rfl | rfl <;> decide

/-- Below the page size, a number with one bit is a power of two. -/
theorem eq_two_pow : ∀ n < 512, 16 ≤ n → n &&& (n - 1) = 0 → n = 2 ^ Nat.log2 n := by
  set_option maxRecDepth 4000 in decide

/-- What a request is rounded to: a power of two, or whole pages. -/
theorem blockSize_cases (hs : size ≤ 2 ^ 64 - 512) :
    size ≤ (blockSize size).1 ∧ ((∃ l, Bucketed l ∧ blockSize size = (2 ^ l, l)) ∨
      ∃ k l, 0 < k ∧ 512 * k + 511 < 2 ^ 64 ∧ blockSize size = (512 * k, l)) := by
  by_cases hsmall : size < 16
  · rw [blockSize, if_pos hsmall]
    exact ⟨hsmall.le, .inl ⟨4, by simp [Bucketed], rfl⟩⟩
  have hpos : size ≠ 0 := by omega
  have hlow := Nat.log2_self_le hpos
  have hhigh : size < 2 ^ (Nat.log2 size + 1) := Nat.lt_log2_self
  have hlog : 64 - 1 - lzcount size = Nat.log2 size := by
    have : Nat.log2 size < 64 := (Nat.log2_lt hpos).mpr (by omega)
    rw [lzcount, if_neg hpos]
    omega
  have hfour : 4 ≤ Nat.log2 size := (Nat.le_log2 hpos).mpr (by omega)
  rw [blockSize, if_neg hsmall]
  simp only [hlog]
  by_cases hnine : Nat.log2 size < 9
  · have hlt : size < 512 := (Nat.log2_lt hpos).mp hnine
    simp only [hnine, if_true, Nat.one_shiftLeft]
    by_cases hbit : size &&& (size - 1) = 0
    · simp only [hbit, ne_eq, not_true_eq_false, if_false]
      exact ⟨(eq_two_pow size hlt (by omega) hbit).le, .inl ⟨_, ⟨hfour, hnine⟩, rfl⟩⟩
    · simp only [hbit, ne_eq, not_false_eq_true, if_true]
      refine ⟨hhigh.le, ?_⟩
      by_cases height : Nat.log2 size = 8
      · exact .inr ⟨1, 9, one_pos, by decide, by rw [height]⟩
      · exact .inl ⟨_, ⟨by omega, by omega⟩, rfl⟩
  · have hge : 512 ≤ size := by
      by_contra hlt
      exact hnine ((Nat.log2_lt hpos).mpr (by omega))
    simp only [hnine, if_false]
    rw [alignTo_eq (by omega)]
    refine ⟨by omega, .inr ⟨(size + 511) / 512, size.log2, by omega, by omega, ?_⟩⟩
    rw [Prod.mk.injEq]
    exact ⟨by omega, rfl⟩

/-- A request is rounded up by less than a page. -/
theorem blockSize_lt (hs : size ≤ 2 ^ 64 - 512) : (blockSize size).1 < size + 512 := by
  by_cases hsmall : size < 16
  · rw [blockSize, if_pos hsmall]
    omega
  rw [blockSize, if_neg hsmall]
  simp only
  by_cases hnine : 64 - 1 - lzcount size < 9
  · simp only [hnine, if_true, Nat.one_shiftLeft]
    have hpow {k : ℕ} (hk : k ≤ 9) : 2 ^ k < size + 512 :=
      (Nat.pow_le_pow_right (by decide) hk).trans_lt (by omega)
    split_ifs <;> exact hpow (by omega)
  · simp only [hnine, if_false]
    rw [alignTo_eq (by omega)]
    omega

/-- Close below 2^64 the rounding wraps to 0, and the bucket index is out of range. -/
theorem blockSize_wrap (hsize : 2 ^ 64 - 512 < size) (hlt : size < 2 ^ 64) :
    blockSize size = (0, 63) := by
  have hlog : Nat.log2 size = 63 := by
    refine (Nat.log2_eq_iff (by omega)).mpr ⟨by omega, by omega⟩
  have hcount : 64 - 1 - lzcount size = 63 := by
    rw [lzcount, if_neg (by omega), hlog]
  rw [blockSize, if_neg (by omega)]
  simp only [hcount]
  rw [if_neg (by decide), alignTo, sizeAdd, Prod.mk.injEq]
  exact ⟨by omega, rfl⟩

end Sizes

section Huge

variable {c : Cfg} {ext : HeapExtent} {fs : List (ℤ × ℕ)} {n : ℕ}

/-- The signed comparison with the root of the size tree finds the request larger. -/
def HeapExtent.Fits (ext : HeapExtent) (n : ℕ) : Prop :=
  ∀ a, ext.sizeTree.top = some (.node a) → n < 2 ^ 63 + ext.size a

theorem HeapExtent.fits_of_lt (hn : n < 2 ^ 63) : ext.Fits n := fun _ _ => by omega

/-- The size of a request is one that the allocator handles. -/
def RequestFits (h : EvlHeap) (size : ℕ) : Prop :=
  size ≤ 2 ^ 64 - 512 ∧ ∀ ext ∈ h.extents, ext.Fits (blockSize size).1

/-- Sizes from 2^63 on compare the wrong way round. -/
theorem compareRangeBySize_huge {r : ℤ} (hn : 2 ^ 63 ≤ n ∧ n < 2 ^ 64) (hr : ext.size r < 2 ^ 63)
    (hpos : 0 < ext.size r) :
    n < 2 ^ 63 + ext.size r ∧ compareRangeBySize ext n r = 1 ∨
      2 ^ 63 + ext.size r ≤ n ∧ compareRangeBySize ext n r = -1 := by
  by_cases hlt : n < 2 ^ 63 + ext.size r
  · refine .inl ⟨hlt, ?_⟩
    rw [compareRangeBySize, Int.bmod_eq_of_le (by omega) (by omega), Int.sign_eq_one_iff_pos]
    omega
  · refine .inr ⟨by omega, ?_⟩
    have hwrap : ((n : ℤ) - ext.size r).bmod (2 ^ 64) = (n : ℤ) - ext.size r - 2 ^ 64 := by
      rw [← Int.sub_bmod_right, Int.bmod_eq_of_le] <;> push_cast <;> omega
    rw [compareRangeBySize, hwrap, Int.sign_eq_neg_one_iff_neg]
    omega

/-- The search for a huge size: nothing, unless the root is too small. -/
theorem Ranges.suitable_huge (h : Ranges ext fs) (hn : 2 ^ 63 ≤ n ∧ n < 2 ^ 64) :
    (ext.Fits n → findSuitableRange ext n = .ok none) ∧
      (¬ ext.Fits n → ∃ r ∈ fs, findSuitableRange ext n = .ok (some r.1)) := by
  obtain ⟨ss, hlist, hperm, hsorted⟩ := h.size
  have hrange {a : ℤ} (ha : a ∈ ss) : ∃ r ∈ fs, r.1 = a ∧ 0 < ext.size a ∧ ext.size a < 2 ^ 63 := by
    obtain ⟨r, hr, rfl⟩ := List.mem_map.mp (hperm.mem_iff.mp ha)
    rw [h.sizes r hr]
    exact ⟨r, hr, rfl, h.pos r hr⟩
  have hcmp {a : ℤ} (ha : a ∈ ss) : n < 2 ^ 63 + ext.size a ∧ compareRangeBySize ext n a = 1 ∨
      2 ^ 63 + ext.size a ≤ n ∧ compareRangeBySize ext n a = -1 := by
    obtain ⟨r, -, -, h₁, h₂⟩ := hrange ha
    exact compareRangeBySize_huge hn h₂ h₁
  have hmono : ss.Pairwise fun x y => compareRangeBySize ext n x ≤ compareRangeBySize ext n y := by
    refine hsorted.imp_of_mem fun hx hy hxy => ?_
    rcases hcmp hx with ⟨h₁, h₂⟩ | ⟨h₁, h₂⟩ <;> rcases hcmp hy with ⟨h₃, h₄⟩ | ⟨h₃, h₄⟩ <;>
      rw [h₂, h₄]
    · omega
    · decide
  have hvals : ∀ x ∈ ss, compareRangeBySize ext n x = 1 ∨ compareRangeBySize ext n x = -1 :=
    fun x hx => (hcmp hx).imp And.right And.right
  rcases avlSearchGe_reversed hlist hvals hmono with ⟨-, htop, hrun⟩ | ⟨a, ha, htop, hone, hneg⟩
  · refine ⟨fun _ => by simp [findSuitableRange, hrun, containerOf], fun hfit => absurd ?_ hfit⟩
    intro a ha
    rw [htop] at ha
    cases ha
  · constructor
    · intro hfit
      rcases hcmp ha with ⟨-, hc⟩ | ⟨hle, -⟩
      · simp [findSuitableRange, hone hc, containerOf]
      · exact absurd (hfit a htop) (by omega)
    · intro hfit
      rcases hcmp ha with ⟨hlt, -⟩ | ⟨-, hc⟩
      · refine absurd (fun b hb => ?_) hfit
        rw [htop] at hb
        obtain rfl : a = b := by simpa using hb
        exact hlt
      · obtain ⟨b, hb, hrun⟩ := hneg hc
        obtain ⟨r, hr, rfl, -⟩ := hrange hb
        exact ⟨r, hr, by simp [findSuitableRange, hrun, containerOf]⟩

/-- No range is found when the request is larger than all of them. -/
theorem Ranges.reserve_fail (h : Ranges ext fs) (hn : n < 2 ^ 64) (hfit : ext.Fits n)
    (hf : ∀ r ∈ fs, r.2 < n) : findSuitableRange ext n = .ok none := by
  by_cases hlt : n < 2 ^ 63
  · exact h.reserve_none hlt hf
  · exact (h.suitable_huge ⟨by omega, hn⟩).1 hfit

theorem reservePageRange_none (h : findSuitableRange ext n = .ok none) :
    reservePageRange c ext n = .ok (ext, -1) := by
  simp only [reservePageRange, h, ok_bind]
  rfl

end Huge

section Reserve

variable {c : Cfg} {ext : HeapExtent} {segs A B : List Seg} {k n : ℕ}

theorem int_of_lt {x : ℤ} (h₀ : 0 ≤ x) (h₁ : x < 2 ^ 31) : c.int x = x := by
  rw [Cfg.int]
  split_ifs
  · rfl
  · exact Int.bmod_eq_of_le (by omega) (by omega)

/-- What is left of a free tile of `n` pages when its last `k` pages are taken. -/
def remain (n k : ℕ) : List Seg := if n = k then [] else [.free (n - k)]

theorem cover_remain : cover Seg.pages (remain n k) = n - k := by
  unfold remain
  split_ifs with hnk
  · simp [hnk]
  · simp [Seg.pages]

theorem remain_valid (h : k ≤ n) : ∀ s ∈ remain n k, s.Valid := by
  intro s hs
  unfold remain at hs
  split_ifs at hs with hnk
  · simp at hs
  · obtain rfl := List.mem_singleton.mp hs
    simp only [Seg.Valid]
    omega

/-- The free ranges of an extent are its free tiles. -/
theorem mem_frees (base : ℤ) (p : ℕ) {m : ℕ} (h : Seg.free m ∈ segs) :
    ∃ r ∈ frees base p segs, r.2 = 512 * m := by
  obtain ⟨A, B, rfl⟩ := List.append_of_mem h
  exact ⟨(base + 512 * ((p + cover Seg.pages A : ℕ) : ℤ), 512 * m), by simp, rfl⟩

/-- `reserve_page_range` takes the end of a smallest free tile that is large enough. -/
theorem Holds.reserve (h : Holds c ext segs) (hk : 0 < k) (hk' : 512 * k < 2 ^ 64)
    (hfit : ext.Fits (512 * k)) :
    ((∀ n, .free n ∈ segs → n < k) ∧ findSuitableRange ext (512 * k) = .ok none) ∨
      ∃ A n B ext', segs = A ++ .free n :: B ∧ k ≤ n ∧ (∀ m, .free m ∈ segs → k ≤ m → n ≤ m) ∧
        (∃ a, findSuitableRange ext (512 * k) = .ok (some a) ∧
          a + (ext.size a - 512 * k : ℕ) - ext.membase =
            ((cover Seg.pages A + (n - k) : ℕ) : ℤ) * 512) ∧
        reservePageRange c ext (512 * k) = .ok (ext', (cover Seg.pages A + (n - k) : ℕ)) ∧
        SamePages ext ext' ∧
        Ranges ext' (frees ext.membase 0 (A ++ remain n k) ++
          frees ext.membase (cover Seg.pages A + n) B) := by
  by_cases hall : ∀ n, .free n ∈ segs → n < k
  · refine .inl ⟨hall, h.ranges.reserve_fail hk' hfit fun r hr => ?_⟩
    obtain ⟨pre, post, hs⟩ := List.append_of_mem hr
    obtain ⟨A, n, B, rfl, -, rfl, -⟩ := exists_free hs
    have := hall n (by simp)
    simp only
    omega
  · push Not at hall
    obtain ⟨m, hm, hkm⟩ := hall
    obtain ⟨q, hq, hqm⟩ := mem_frees ext.membase 0 hm
    have hbig := (h.ranges.pos q hq).2
    obtain ⟨pre, r, post, ext', hs, hle, hbest, hfind, hrun, hsame, hranges⟩ := h.ranges.reserve
      (c := c) (n := 512 * k) (by omega) ⟨q, hq, by omega⟩
    obtain ⟨A, n, B, rfl, rfl, rfl, rfl⟩ := exists_free hs
    have hsize := h.ranges.sizes (ext.membase + 512 * ((0 + cover Seg.pages A : ℕ) : ℤ), 512 * n)
      (by rw [hs]; simp)
    simp only at hsize
    have hkn : k ≤ n := by
      simp only at hle
      omega
    have htotal := h.total
    have hbound := h.bound
    simp only [cover_append, cover_cons, Seg.pages] at htotal
    refine .inr ⟨A, n, B, ext', rfl, hkn, fun m hm hkm => ?_, ⟨_, hfind, ?_⟩, ?_, hsame, ?_⟩
    · obtain ⟨q, hq, hqm⟩ := mem_frees ext.membase 0 hm
      have := hbest q hq (by omega)
      simp only at this
      omega
    · rw [hsize]
      push_cast
      omega
    · rw [hrun, addrToPagenr]
      have hpage : (ext.membase + 512 * ((0 + cover Seg.pages A : ℕ) : ℤ) +
          ((512 * n - 512 * k : ℕ) : ℤ) - ext.membase) / 512 =
          ((cover Seg.pages A + (n - k) : ℕ) : ℤ) := by omega
      simp only [hpage]
      rw [int_of_lt (by omega) (by omega)]
    · have hcut : cut (ext.membase + 512 * ((0 + cover Seg.pages A : ℕ) : ℤ), 512 * n) (512 * k) =
          frees ext.membase (0 + cover Seg.pages A) (remain n k) := by
        unfold cut remain
        by_cases hnk : n = k
        · rw [if_pos (by simp [hnk]), if_pos hnk, frees_nil]
        · rw [if_neg (by simp [hnk]), if_neg hnk, frees_free]
          simp [Nat.mul_sub]
      rw [hcut, ← frees_append, Nat.zero_add] at hranges
      exact hranges

theorem reserveScan_none {c : Cfg} {n : ℕ} {exts : List HeapExtent}
    (hno : ∀ e ∈ exts, reservePageRange c e n = .ok (e, -1)) :
    reserveScan c n exts = .ok (exts, none) := by
  induction exts with
  | nil => rfl
  | cons e exts ih =>
    have he := hno e List.mem_cons_self
    simp only [reserveScan, he, ok_bind, ih fun x hx => hno x (List.mem_cons_of_mem _ hx)]
    rfl

/-- The extents in front of the one in which pages are found stay as they are. -/
theorem reserveScan_some {c : Cfg} {n : ℕ} {pre : List HeapExtent} {ext ext' : HeapExtent} {pg : ℤ}
    (post : List HeapExtent) (hpre : ∀ e ∈ pre, reservePageRange c e n = .ok (e, -1))
    (hrun : reservePageRange c ext n = .ok (ext', pg)) (hpg : 0 ≤ pg) :
    reserveScan c n (pre ++ ext :: post) = .ok (pre ++ ext' :: post, some (pre.length, pg)) := by
  induction pre with
  | nil =>
    simp only [List.nil_append, reserveScan, hrun, ok_bind, hpg, if_true]
    rfl
  | cons e pre ih =>
    have he := hpre e List.mem_cons_self
    simp only [List.cons_append, reserveScan, he, ok_bind,
      ih fun x hx => hpre x (List.mem_cons_of_mem _ hx)]
    rfl

end Reserve

end Libevl.Heap
