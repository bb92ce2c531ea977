import Libevl.AvlDelete
import Libevl.Heap
import Mathlib.Data.Int.Order.Lemmas
import Mathlib.Data.List.Perm.Basic

/-!
# The free ranges of an extent

Two trees index the free ranges, one by address and one by size. Together they
stand for one list of ranges in address order, in which no range touches the
next one. Reserving cuts the upper end off a best fit, and releasing joins a
range with the neighbours it touches.
-/
namespace Libevl.Heap
open AvlTree

section Fields

variable (ext : HeapExtent) (t : Avl ℤ) (a : ℤ) (n : ℕ)

@[simp] theorem withSizeTree_sizeTree : (ext.withSizeTree t).sizeTree = t := rfl
@[simp] theorem withSizeTree_addrTree : (ext.withSizeTree t).addrTree = ext.addrTree := rfl
@[simp] theorem withSizeTree_size : (ext.withSizeTree t).size = ext.size := rfl
@[simp] theorem withAddrTree_addrTree : (ext.withAddrTree t).addrTree = t := rfl
@[simp] theorem withAddrTree_sizeTree : (ext.withAddrTree t).sizeTree = ext.sizeTree := rfl
@[simp] theorem withAddrTree_size : (ext.withAddrTree t).size = ext.size := rfl
@[simp] theorem setSize_sizeTree : (ext.setSize a n).sizeTree = ext.sizeTree := rfl
@[simp] theorem setSize_addrTree : (ext.setSize a n).addrTree = ext.addrTree := rfl
@[simp] theorem setSize_self : (ext.setSize a n).size a = n := Function.update_self ..

theorem setSize_of_ne {b : ℤ} (h : b ≠ a) : (ext.setSize a n).size b = ext.size b :=
  Function.update_of_ne h ..

end Fields

/-- Only the free ranges of an extent differ. -/
structure SamePages (ext ext' : HeapExtent) : Prop where
  mem : ext'.mem = ext.mem
  membase : ext'.membase = ext.membase
  memlim : ext'.memlim = ext.memlim
  nrpages : ext'.nrpages = ext.nrpages
  pagemap : ext'.pagemap = ext.pagemap

theorem SamePages.trans {e e' e'' : HeapExtent} (h : SamePages e e') (h' : SamePages e' e'') :
    SamePages e e'' :=
  ⟨h'.mem.trans h.mem, h'.membase.trans h.membase, h'.memlim.trans h.memlim,
    h'.nrpages.trans h.nrpages, h'.pagemap.trans h.pagemap⟩

/-- The size tree links the ranges at `as`, in the order of their sizes. -/
def SizeIndex (ext : HeapExtent) (as : List ℤ) : Prop :=
  ∃ ss, Lists ext.sizeTree ss ∧ ss.Perm as ∧ ss.Pairwise fun x y => ext.size x ≤ ext.size y

/-- The two trees index the ranges `fs`, with their sizes. -/
structure Ranges (ext : HeapExtent) (fs : List (ℤ × ℕ)) : Prop where
  addr : Lists ext.addrTree (fs.map Prod.fst)
  size : SizeIndex ext (fs.map Prod.fst)
  sizes : ∀ r ∈ fs, ext.size r.1 = r.2
  apart : fs.Pairwise fun x y => x.1 + (x.2 : ℤ) < y.1
  pos : ∀ r ∈ fs, 0 < r.2 ∧ r.2 < 2 ^ 63

section Compare

theorem sign_cases (x : ℤ) : x.sign = -1 ∨ x.sign = 0 ∨ x.sign = 1 := by
  rcases lt_trichotomy x 0 with h | h | h
  · exact .inl (Int.sign_eq_neg_one_of_neg h)
  · exact .inr (.inl (by rw [h, Int.sign_zero]))
  · exact .inr (.inr (Int.sign_eq_one_of_pos h))

theorem sign_mono {x y : ℤ} (h : x ≤ y) : x.sign ≤ y.sign := by
  rcases sign_cases x with hx | hx | hx <;> rcases sign_cases y with hy | hy | hy <;>
    simp only [hx, hy] <;> try decide
  · rw [Int.sign_eq_zero_iff_zero] at hx
    rw [Int.sign_eq_neg_one_iff_neg] at hy
    omega
  · rw [Int.sign_eq_one_iff_pos] at hx
    rw [Int.sign_eq_neg_one_iff_neg] at hy
    omega
  · rw [Int.sign_eq_one_iff_pos] at hx
    rw [Int.sign_eq_zero_iff_zero] at hy
    omega

/-- Sizes below 2^63 compare as numbers. -/
theorem compareRangeBySize_eq {ext : HeapExtent} {n : ℕ} {r : ℤ} (hn : n < 2 ^ 63)
    (hr : ext.size r < 2 ^ 63) :
    compareRangeBySize ext n r = ((n : ℤ) - ext.size r).sign := by
  rw [compareRangeBySize, Int.bmod_eq_of_le] <;> omega

variable {ext : HeapExtent} {n : ℕ} {as ss : List ℤ} {a : ℤ}

theorem compareRangeBySize_cases (ext : HeapExtent) (n : ℕ) (r : ℤ) :
    compareRangeBySize ext n r = -1 ∨ compareRangeBySize ext n r = 0 ∨
      compareRangeBySize ext n r = 1 :=
  sign_cases _

theorem compareRangeByAddr_cases (l r : ℤ) :
    compareRangeByAddr l r = -1 ∨ compareRangeByAddr l r = 0 ∨ compareRangeByAddr l r = 1 :=
  sign_cases _

theorem compare_mono (hs : ss.Pairwise fun x y => ext.size x ≤ ext.size y) (hn : n < 2 ^ 63)
    (hb : ∀ a ∈ ss, ext.size a < 2 ^ 63) :
    ss.Pairwise fun x y => compareRangeBySize ext n y ≤ compareRangeBySize ext n x := by
  refine hs.imp_of_mem fun hx hy hxy => ?_
  rw [compareRangeBySize_eq hn (hb _ hx), compareRangeBySize_eq hn (hb _ hy)]
  exact sign_mono (by omega)

end Compare

section SizeIndex

variable {ext : HeapExtent} {n : ℕ} {as bs : List ℤ} {a : ℤ}

theorem SizeIndex.perm (h : SizeIndex ext as) (hp : as.Perm bs) : SizeIndex ext bs := by
  obtain ⟨ss, h₁, h₂, h₃⟩ := h
  exact ⟨ss, h₁, h₂.trans hp, h₃⟩

theorem SizeIndex.setSize (h : SizeIndex ext as) (ha : a ∉ as) :
    SizeIndex (ext.setSize a n) as := by
  obtain ⟨ss, h₁, h₂, h₃⟩ := h
  refine ⟨ss, h₁, h₂, h₃.imp_of_mem fun {x y} hx hy hxy => ?_⟩
  have hne {z : ℤ} (hz : z ∈ ss) : z ≠ a := fun hza => ha (h₂.mem_iff.mp (hza ▸ hz))
  simp only [HeapExtent.setSize, Function.update_of_ne (hne hx), Function.update_of_ne (hne hy)]
  exact hxy

/-- The search by size: the best fit, when there is one. -/
theorem SizeIndex.suitable (h : SizeIndex ext as) (hn : n < 2 ^ 63)
    (hb : ∀ a ∈ as, ext.size a < 2 ^ 63) :
    (findSuitableRange ext n = .ok none ∧ ∀ a ∈ as, ext.size a < n) ∨
      ∃ a ∈ as, findSuitableRange ext n = .ok (some a) ∧ n ≤ ext.size a ∧
        ∀ b ∈ as, n ≤ ext.size b → ext.size a ≤ ext.size b := by
  obtain ⟨ss, h₁, h₂, h₃⟩ := h
  have hbs : ∀ a ∈ ss, ext.size a < 2 ^ 63 := fun a ha => hb a (h₂.mem_iff.mp ha)
  have hcmp {x : ℤ} (hx : x ∈ ss) := compareRangeBySize_eq hn (hbs x hx)
  rcases avlSearchNearest_spec h₁ (compareRangeBySize_cases ext n) (compare_mono h₃ hn hbs) with
    ⟨a, ha, hz, hrun⟩ | ⟨pre, post, rfl, hpre, hpost, -, hrun⟩
  · rw [hcmp ha, Int.sign_eq_zero_iff_zero] at hz
    refine .inr ⟨a, h₂.mem_iff.mp ha, ?_, by omega, fun b _ hb => by omega⟩
    have hge : avlSearchGe ext.sizeTree (compareRangeBySize ext n) = .ok (some (.node a)) :=
      hrun .right
    simp [findSuitableRange, hge, containerOf]
  · have hlow {x : ℤ} (hx : x ∈ pre) : ext.size x < n := by
      have := hpre x hx
      rw [hcmp (List.mem_append_left _ hx), Int.sign_pos_iff] at this
      omega
    have hhigh {x : ℤ} (hx : x ∈ post) : n < ext.size x := by
      have := hpost x hx
      rw [hcmp (List.mem_append_right _ hx), Int.sign_neg_iff] at this
      omega
    cases post with
    | nil =>
      refine .inl ⟨by simp [findSuitableRange, hrun, containerOf], fun a ha => ?_⟩
      exact hlow (by simpa using h₂.mem_iff.mpr ha)
    | cons a post =>
      refine .inr ⟨a, h₂.mem_iff.mp (by simp), by simp [findSuitableRange, hrun, containerOf],
        (hhigh List.mem_cons_self).le, fun b hb hnb => ?_⟩
      rcases List.mem_append.mp (h₂.mem_iff.mpr hb) with hb | hb
      · exact absurd (hlow hb) (by omega)
      · rcases List.mem_cons.mp hb with rfl | hb
        · exact le_rfl
        · exact (List.pairwise_cons.mp (List.pairwise_append.mp h₃).2.1).1 b hb

/-- A range leaves the size tree. -/
theorem SizeIndex.delete (h : SizeIndex ext as) (ha : a ∈ as) :
    ∃ t, avlDelete ext.sizeTree (.node a) = .ok t ∧ SizeIndex (ext.withSizeTree t) (as.erase a) := by
  obtain ⟨ss, h₁, h₂, h₃⟩ := h
  obtain ⟨t, hrun, ht⟩ := avlDelete_erase h₁ (h₂.mem_iff.mpr ha)
  exact ⟨t, hrun, _, ht, h₂.erase a, h₃.sublist List.erase_sublist⟩

/-- Where a size belongs in a sorted list. -/
theorem exists_cut {f : ℤ → ℕ} {ss : List ℤ} (h : ss.Pairwise fun x y => f x ≤ f y) (n : ℕ) :
    ∃ pre post, ss = pre ++ post ∧ (∀ p ∈ pre, f p ≤ n) ∧ ∀ p ∈ post, n < f p := by
  induction ss with
  | nil => exact ⟨[], [], rfl, by simp, by simp⟩
  | cons a ss ih =>
    obtain ⟨ha, hs⟩ := List.pairwise_cons.mp h
    by_cases han : f a ≤ n
    · obtain ⟨pre, post, rfl, h₁, h₂⟩ := ih hs
      exact ⟨a :: pre, post, rfl, by simpa [han] using h₁, h₂⟩
    · refine ⟨[], a :: ss, rfl, by simp, fun p hp => ?_⟩
      rcases List.mem_cons.mp hp with rfl | hp
      · omega
      · exact (not_le.mp han).trans_le (ha p hp)

/-- A range is linked in the size tree, behind those that are not larger. -/
theorem SizeIndex.insert (h : SizeIndex ext as) (ha : a ∉ as) (hn : ext.size a < 2 ^ 63)
    (hb : ∀ a ∈ as, ext.size a < 2 ^ 63) :
    ∃ t, avlInsertBack (avlhInit ext.sizeTree (.node a)) (.node a)
        (compareRangeBySize ext (ext.size a)) = .ok t ∧
      SizeIndex (ext.withSizeTree t) (a :: as) := by
  obtain ⟨ss, h₁, h₂, h₃⟩ := h
  have hbs : ∀ a ∈ ss, ext.size a < 2 ^ 63 := fun a ha => hb a (h₂.mem_iff.mp ha)
  have hass : a ∉ ss := fun has => ha (h₂.mem_iff.mp has)
  obtain ⟨pre, post, rfl, hpre, hpost⟩ := exists_cut h₃ (ext.size a)
  obtain ⟨hinit, hbal⟩ := h₁.init hass
  obtain ⟨t, hrun, ht⟩ := avlInsertBack_spec hinit hass hbal (compareRangeBySize_cases ext _)
    (fun p hp => by
      rw [compareRangeBySize_eq hn (hbs p (List.mem_append_left _ hp)), Int.sign_nonneg_iff]
      have := hpre p hp
      omega)
    (fun p hp => by
      rw [compareRangeBySize_eq hn (hbs p (List.mem_append_right _ hp)), Int.sign_neg_iff]
      have := hpost p hp
      omega)
  refine ⟨t, hrun, _, ht, List.perm_middle.trans (h₂.cons a), ?_⟩
  obtain ⟨hp, hq, hpq⟩ := List.pairwise_append.mp h₃
  refine List.pairwise_append.mpr ⟨hp, List.pairwise_cons.mpr ⟨fun y hy => (hpost y hy).le, hq⟩, ?_⟩
  intro x hx y hy
  rcases List.mem_cons.mp hy with rfl | hy
  · exact hpre x hx
  · exact hpq x hx y hy

end SizeIndex

section Reserve

variable {c : Cfg} {ext : HeapExtent} {fs pre post : List (ℤ × ℕ)} {r : ℤ × ℕ} {n : ℕ}

theorem sizeSub_of_le {a b : ℕ} (h : b ≤ a) (ha : a < 2 ^ 64) : sizeSub a b = a - b := by
  rw [sizeSub, show a + (2 ^ 64 - b) = a - b + 2 ^ 64 by omega, Nat.add_mod_right,
    Nat.mod_eq_of_lt (by omega)]

theorem sizeAdd_of_lt {a b : ℕ} (h : a + b < 2 ^ 64) : sizeAdd a b = a + b := Nat.mod_eq_of_lt h

theorem Ranges.bound (h : Ranges ext fs) : ∀ a ∈ fs.map Prod.fst, ext.size a < 2 ^ 63 := by
  intro a ha
  obtain ⟨r, hr, rfl⟩ := List.mem_map.mp ha
  rw [h.sizes r hr]
  exact (h.pos r hr).2

/-- The addresses on both sides of a range. -/
theorem Ranges.notMem (h : Ranges ext (pre ++ r :: post)) :
    r.1 ∉ pre.map Prod.fst ++ post.map Prod.fst := by
  have hnd := h.addr.nodup
  rw [List.map_append, List.map_cons] at hnd
  exact (List.nodup_cons.mp (List.perm_middle.nodup hnd)).1

theorem Ranges.erase (h : Ranges ext (pre ++ r :: post)) :
    ((pre ++ r :: post).map Prod.fst).erase r.1 = (pre ++ post).map Prod.fst := by
  have hpre := mt (List.mem_append_left (post.map Prod.fst)) h.notMem
  simp [List.erase_append_right _ hpre]

/-- What is left of a range when `n` bytes are taken off its upper end. -/
def cut (r : ℤ × ℕ) (n : ℕ) : List (ℤ × ℕ) := if r.2 = n then [] else [(r.1, r.2 - n)]

/-- Nothing is reserved when no range is large enough. -/
theorem Ranges.reserve_none (h : Ranges ext fs) (hn : n < 2 ^ 63) (hf : ∀ r ∈ fs, r.2 < n) :
    findSuitableRange ext n = .ok none := by
  rcases h.size.suitable hn h.bound with ⟨hrun, -⟩ | ⟨a, ha, -, hna, -⟩
  · exact hrun
  · obtain ⟨r, hr, rfl⟩ := List.mem_map.mp ha
    rw [h.sizes r hr] at hna
    exact absurd (hf r hr) (by omega)

/-- An exact fit leaves both trees. -/
theorem Ranges.remove (h : Ranges ext (pre ++ r :: post)) :
    ∃ t u, avlDelete ext.sizeTree (.node r.1) = .ok t ∧ avlDelete ext.addrTree (.node r.1) = .ok u ∧
      Ranges ((ext.withSizeTree t).withAddrTree u) (pre ++ post) := by
  have haddr := h.addr
  rw [List.map_append, List.map_cons] at haddr
  obtain ⟨t, ht, hsize⟩ := h.size.delete (a := r.1) (by simp)
  obtain ⟨u, hu, haddr'⟩ := avlDelete_spec haddr
  have hsub : (pre ++ post).Sublist (pre ++ r :: post) := by simp
  refine ⟨t, u, ht, hu, by simpa using haddr', h.erase ▸ hsize, fun q hq => h.sizes q (hsub.subset hq),
    h.apart.sublist hsub, fun q hq => h.pos q (hsub.subset hq)⟩

/-- A range takes another size: only the size tree changes. -/
theorem Ranges.resize (h : Ranges ext (pre ++ r :: post)) (hn : 0 < n ∧ n < 2 ^ 63)
    (hpost : ∀ q ∈ post, r.1 + (n : ℤ) < q.1) :
    ∃ t u, avlDelete ext.sizeTree (.node r.1) = .ok t ∧
      avlInsertBack (avlhInit t (.node r.1)) (.node r.1)
        (compareRangeBySize (ext.setSize r.1 n) n) = .ok u ∧
      Ranges ((ext.setSize r.1 n).withSizeTree u) (pre ++ (r.1, n) :: post) := by
  obtain ⟨t, ht, hsize⟩ := h.size.delete (a := r.1) (by simp)
  rw [h.erase] at hsize
  have hnot : r.1 ∉ (pre ++ post).map Prod.fst := by simpa using h.notMem
  have hne {q : ℤ × ℕ} (hq : q ∈ pre ++ post) : q.1 ≠ r.1 := fun hqr =>
    hnot (hqr ▸ List.mem_map_of_mem hq)
  have hsub : (pre ++ post).Sublist (pre ++ r :: post) := by simp
  have hbound : ∀ a ∈ (pre ++ post).map Prod.fst, (ext.setSize r.1 n).size a < 2 ^ 63 := by
    intro a ha
    rw [setSize_of_ne _ _ _ fun har : a = r.1 => hnot (har ▸ ha)]
    exact h.bound a ((hsub.map _).subset ha)
  obtain ⟨u, hu, hsize'⟩ := (hsize.setSize (n := n) hnot).insert hnot (by simpa using hn.2) hbound
  rw [setSize_self] at hu
  refine ⟨t, u, ht, hu, by simpa using h.addr, hsize'.perm ?_, ?_, ?_, ?_⟩
  · simpa using List.perm_middle.symm
  · intro q hq
    rcases List.mem_cons.mp (List.perm_middle.mem_iff.mp hq) with rfl | hq
    · simp
    · rw [withSizeTree_size, setSize_of_ne _ _ _ (hne hq)]
      exact h.sizes q (hsub.subset hq)
  · obtain ⟨h₁, h₂, h₃⟩ := List.pairwise_append.mp h.apart
    obtain ⟨-, h₅⟩ := List.pairwise_cons.mp h₂
    refine List.pairwise_append.mpr ⟨h₁, List.pairwise_cons.mpr ⟨hpost, h₅⟩, fun x hx y hy => ?_⟩
    rcases List.mem_cons.mp hy with rfl | hy
    · exact h₃ x hx r List.mem_cons_self
    · exact h₃ x hx y (List.mem_cons_of_mem _ hy)
  · intro q hq
    rcases List.mem_cons.mp (List.perm_middle.mem_iff.mp hq) with rfl | hq
    · exact hn
    · exact h.pos q (hsub.subset hq)

/-- Pages are reserved from the upper end of a best fit. -/
theorem Ranges.reserve (h : Ranges ext fs) (hn : 0 < n ∧ n < 2 ^ 63) (hf : ∃ r ∈ fs, n ≤ r.2) :
    ∃ pre r post ext', fs = pre ++ r :: post ∧ n ≤ r.2 ∧ (∀ q ∈ fs, n ≤ q.2 → r.2 ≤ q.2) ∧
      findSuitableRange ext n = .ok (some r.1) ∧
      reservePageRange c ext n = .ok (ext', addrToPagenr c ext (r.1 + (r.2 - n : ℕ))) ∧
      SamePages ext ext' ∧ Ranges ext' (pre ++ cut r n ++ post) := by
  rcases h.size.suitable hn.2 h.bound with ⟨-, hlow⟩ | ⟨a, ha, hrun, hna, hbest⟩
  · obtain ⟨r, hr, hnr⟩ := hf
    have hlt := hlow r.1 (List.mem_map_of_mem hr)
    rw [h.sizes r hr] at hlt
    omega
  obtain ⟨r, hr, rfl⟩ := List.mem_map.mp ha
  obtain ⟨pre, post, rfl⟩ := List.append_of_mem hr
  rw [h.sizes r hr] at hna
  have hbest' : ∀ q ∈ pre ++ r :: post, n ≤ q.2 → r.2 ≤ q.2 := by
    intro q hq hnq
    have := hbest q.1 (List.mem_map_of_mem hq)
    rw [h.sizes q hq, h.sizes r hr] at this
    exact this hnq
  by_cases heq : r.2 = n
  · obtain ⟨t, u, ht, hu, hranges⟩ := h.remove
    refine ⟨pre, r, post, (ext.withSizeTree t).withAddrTree u, rfl, hna, hbest', hrun, ?_,
      ⟨rfl, rfl, rfl, rfl, rfl⟩, by simpa [cut, heq] using hranges⟩
    simp [reservePageRange, hrun, ht, hu, h.sizes r hr, heq, addrToPagenr]
    rfl
  · have hpos := h.pos r hr
    obtain ⟨t, u, ht, hu, hranges⟩ := h.resize (n := r.2 - n) (by omega) (fun q hq => by
      have := (List.pairwise_cons.mp (List.pairwise_append.mp h.apart).2.1).1 q hq
      omega)
    refine ⟨pre, r, post, (ext.setSize r.1 (r.2 - n)).withSizeTree u, rfl, hna, hbest', hrun, ?_,
      ⟨rfl, rfl, rfl, rfl, rfl⟩, by simpa [cut, heq] using hranges⟩
    have hsub : sizeSub r.2 n = r.2 - n := sizeSub_of_le hna (by omega)
    have hu' : avlInsertBack (avlhInit t (.node r.1)) (.node r.1)
        (compareRangeBySize ((ext.withSizeTree t).setSize r.1 (r.2 - n)) (r.2 - n)) = .ok u := hu
    simp [reservePageRange, hrun, ht, h.sizes r hr, heq, hsub, hu', addrToPagenr]
    exact ⟨rfl, rfl⟩

end Reserve

section Release

variable {c : Cfg} {ext : HeapExtent} {fs pre post : List (ℤ × ℕ)} {l r : ℤ × ℕ} {n : ℕ} {a : ℤ}
  {left : Option ℤ}

theorem compareRangeByAddr_pos {x y : ℤ} : 0 < compareRangeByAddr x y ↔ y < x := by
  rw [compareRangeByAddr, Int.sign_pos_iff]
  omega

theorem compareRangeByAddr_neg {x y : ℤ} : compareRangeByAddr x y < 0 ↔ x < y := by
  rw [compareRangeByAddr, Int.sign_neg_iff]
  omega

/-- The neighbours of an address. -/
theorem neighbours {as bs : List ℤ} (h : Lists ext.addrTree (as ++ bs)) (ha : ∀ x ∈ as, x < a)
    (hb : ∀ x ∈ bs, a < x) :
    findLeftNeighbour ext a = .ok as.getLast? ∧ findRightNeighbour ext a = .ok bs.head? := by
  have hpre : ∀ x ∈ as, 0 < compareRangeByAddr a x := fun x hx =>
    compareRangeByAddr_pos.mpr (ha x hx)
  have hpost : ∀ x ∈ bs, compareRangeByAddr a x < 0 := fun x hx =>
    compareRangeByAddr_neg.mpr (hb x hx)
  rcases avlSearchNearest_spec h (compareRangeByAddr_cases a)
    (pairwise_of_split (compareRangeByAddr_cases a) hpre hpost) with
    ⟨x, hx, hz, -⟩ | ⟨as', bs', hs, h₁, h₂, hle, hge⟩
  · rcases List.mem_append.mp hx with hx | hx
    · exact absurd hz (hpre x hx).ne'
    · exact absurd hz (hpost x hx).ne
  · obtain ⟨rfl, rfl⟩ := split_unique hs hpre hpost h₁ h₂
    constructor
    · rw [findLeftNeighbour, hle]
      cases as.getLast? <;> rfl
    · rw [findRightNeighbour, hge]
      cases bs.head? <;> rfl

/-- A range `a` of `n` bytes between `pre` and `post`, which the size tree does not link. -/
structure Loose (ext : HeapExtent) (pre post : List (ℤ × ℕ)) (a : ℤ) (n : ℕ) : Prop where
  size : SizeIndex ext ((pre ++ post).map Prod.fst)
  sizes : ∀ r ∈ pre ++ post, ext.size r.1 = r.2
  self : ext.size a = n
  notMem : a ∉ (pre ++ post).map Prod.fst

theorem Loose.resize {m : ℕ} (h : Loose ext pre post a n) : Loose (ext.setSize a m) pre post a m := by
  refine ⟨h.size.setSize h.notMem, fun r hr => ?_, setSize_self .., h.notMem⟩
  rw [setSize_of_ne _ _ _ fun hra : r.1 = a => h.notMem (hra ▸ List.mem_map_of_mem hr)]
  exact h.sizes r hr

/-- A range that is not indexed yet. -/
theorem Ranges.loose (h : Ranges ext (pre ++ post)) (ha : a ∉ (pre ++ post).map Prod.fst) :
    Loose (ext.setSize a n) pre post a n := by
  refine ⟨h.size.setSize ha, fun r hr => ?_, setSize_self .., ha⟩
  rw [setSize_of_ne _ _ _ fun hra : r.1 = a => ha (hra ▸ List.mem_map_of_mem hr)]
  exact h.sizes r hr

/-- A linked range is taken out of the size tree. -/
theorem Loose.of_delete (hs : SizeIndex ext ((pre ++ r :: post).map Prod.fst))
    (hsizes : ∀ q ∈ pre ++ r :: post, ext.size q.1 = q.2)
    (hr : r.1 ∉ (pre ++ post).map Prod.fst) :
    ∃ t, avlDelete ext.sizeTree (.node r.1) = .ok t ∧ Loose (ext.withSizeTree t) pre post r.1 r.2 := by
  obtain ⟨t, ht, hsize⟩ := hs.delete (a := r.1) (by simp)
  have hpre : r.1 ∉ pre.map Prod.fst := by
    rw [List.map_append, List.mem_append, not_or] at hr
    exact hr.1
  have herase : ((pre ++ r :: post).map Prod.fst).erase r.1 = (pre ++ post).map Prod.fst := by
    simp [List.erase_append_right _ hpre]
  have hsub : (pre ++ post).Sublist (pre ++ r :: post) := by simp
  exact ⟨t, ht, herase ▸ hsize, fun q hq => hsizes q (hsub.subset hq), hsizes r (by simp), hr⟩

/-- The size tree links the range. -/
theorem Loose.link (h : Loose ext pre post a n)
    (haddr : Lists ext.addrTree ((pre ++ (a, n) :: post).map Prod.fst))
    (hap : (pre ++ (a, n) :: post).Pairwise fun x y => x.1 + (x.2 : ℤ) < y.1)
    (hpos : ∀ q ∈ pre ++ (a, n) :: post, 0 < q.2 ∧ q.2 < 2 ^ 63) :
    ∃ t, avlInsertBack (avlhInit ext.sizeTree (.node a)) (.node a)
        (compareRangeBySize ext (ext.size a)) = .ok t ∧
      Ranges (ext.withSizeTree t) (pre ++ (a, n) :: post) := by
  have hsub : (pre ++ post).Sublist (pre ++ (a, n) :: post) := by simp
  have hbound : ∀ x ∈ (pre ++ post).map Prod.fst, ext.size x < 2 ^ 63 := by
    intro x hx
    obtain ⟨q, hq, rfl⟩ := List.mem_map.mp hx
    rw [h.sizes q hq]
    exact (hpos q (hsub.subset hq)).2
  obtain ⟨t, ht, hsize⟩ := h.size.insert h.notMem
    (by rw [h.self]; exact (hpos (a, n) (by simp)).2) hbound
  refine ⟨t, ht, haddr, hsize.perm (by simpa using List.perm_middle.symm), fun q hq => ?_, hap, hpos⟩
  rcases List.mem_cons.mp (List.perm_middle.mem_iff.mp hq) with rfl | hq
  · exact h.self
  · exact h.sizes q hq

/-- The freed pages touch the range on their left. -/
theorem releaseLeft_some (h : Ranges ext (pre ++ l :: post)) (hl : l.1 + (l.2 : ℤ) = a)
    (hn : l.2 + n < 2 ^ 63) (hpost : ∀ q ∈ post, a < q.1) :
    ∃ ext', releaseLeft (ext.setSize a n) a =
        .ok (ext', l.1, true, some l.1, (post.map Prod.fst).head?) ∧ SamePages ext ext' ∧
      Loose ext' pre post l.1 (l.2 + n) ∧
      Lists ext'.addrTree ((pre ++ l :: post).map Prod.fst) := by
  have hpos := (h.pos l (by simp)).1
  have hapart := List.pairwise_append.mp h.apart
  have hla : l.1 ≠ a := by omega
  have hnot : a ∉ (pre ++ l :: post).map Prod.fst := by
    simp only [List.map_append, List.map_cons, List.mem_append, List.mem_cons, not_or]
    refine ⟨fun hm => ?_, hla.symm, fun hm => ?_⟩
    · obtain ⟨q, hq, rfl⟩ := List.mem_map.mp hm
      have := hapart.2.2 q hq l List.mem_cons_self
      omega
    · obtain ⟨q, hq, rfl⟩ := List.mem_map.mp hm
      exact absurd (hpost q hq) (lt_irrefl _)
  have haddr : Lists (ext.setSize a n).addrTree
      ((pre.map Prod.fst ++ [l.1]) ++ post.map Prod.fst) := by simpa using h.addr
  obtain ⟨hleft, -⟩ := neighbours haddr (a := a)
    (fun x hx => by
      rcases List.mem_append.mp hx with hx | hx
      · obtain ⟨q, hq, rfl⟩ := List.mem_map.mp hx
        have := hapart.2.2 q hq l List.mem_cons_self
        omega
      · rw [List.mem_singleton.mp hx]
        omega)
    (fun x hx => by
      obtain ⟨q, hq, rfl⟩ := List.mem_map.mp hx
      exact hpost q hq)
  rw [List.getLast?_concat] at hleft
  have hindex : SizeIndex (ext.setSize a n) ((pre ++ l :: post).map Prod.fst) := h.size.setSize hnot
  obtain ⟨t, ht, hloose⟩ := Loose.of_delete hindex (h.loose hnot).sizes (by simpa using h.notMem)
  have haddr' : Lists ((ext.setSize a n).withSizeTree t).addrTree
      (pre.map Prod.fst ++ l.1 :: post.map Prod.fst) := by simpa using h.addr
  have hnext := avlNext_spec haddr'
  have hsize : (ext.setSize a n).size l.1 = l.2 := by
    rw [setSize_of_ne _ _ _ hla, h.sizes l (by simp)]
  have hmerge : rangesMergeable (ext.setSize a n) l.1 a = true := by
    simp [rangesMergeable, hsize, hl]
  refine ⟨((ext.setSize a n).withSizeTree t).setSize l.1 (l.2 + n), ?_, ⟨rfl, rfl, rfl, rfl, rfl⟩,
    hloose.resize, by simpa using h.addr⟩
  have hsum : sizeAdd l.2 n = l.2 + n := sizeAdd_of_lt (by omega)
  have hnb : findNextNeighbour (((ext.setSize a n).withSizeTree t).setSize l.1 (l.2 + n)) l.1 =
      .ok (post.map Prod.fst).head? := by
    rw [findNextNeighbour, setSize_addrTree, hnext]
    cases (post.map Prod.fst).head? <;> rfl
  simp only [releaseLeft, hleft, ok_bind, Option.filter_some, hmerge, if_true, ht, withSizeTree_size,
    hsize, setSize_self, hsum, hnb]
  rfl

/-- The freed pages touch nothing on their left. -/
theorem releaseLeft_none (h : Ranges ext (pre ++ post)) (hpre : ∀ q ∈ pre, q.1 + (q.2 : ℤ) < a)
    (hpost : ∀ q ∈ post, a < q.1) :
    releaseLeft (ext.setSize a n) a = .ok (ext.setSize a n, a, false, (pre.map Prod.fst).getLast?,
        (post.map Prod.fst).head?) ∧
      Loose (ext.setSize a n) pre post a n := by
  have hpre' : ∀ x ∈ pre.map Prod.fst, x < a := by
    intro x hx
    obtain ⟨q, hq, rfl⟩ := List.mem_map.mp hx
    have := hpre q hq
    omega
  have hpost' : ∀ x ∈ post.map Prod.fst, a < x := by
    intro x hx
    obtain ⟨q, hq, rfl⟩ := List.mem_map.mp hx
    exact hpost q hq
  have hnot : a ∉ (pre ++ post).map Prod.fst := by
    rw [List.map_append, List.mem_append, not_or]
    exact ⟨fun hm => lt_irrefl _ (hpre' a hm), fun hm => lt_irrefl _ (hpost' a hm)⟩
  have haddr : Lists (ext.setSize a n).addrTree (pre.map Prod.fst ++ post.map Prod.fst) := by
    simpa using h.addr
  obtain ⟨hleft, hright⟩ := neighbours haddr hpre' hpost'
  have hloose := h.loose (n := n) hnot
  have hfilter : (pre.map Prod.fst).getLast?.filter (rangesMergeable (ext.setSize a n) · a) =
      none := by
    rw [Option.filter_eq_none_iff]
    intro x hx
    obtain ⟨q, hq, rfl⟩ := List.mem_map.mp (List.mem_of_getLast? hx)
    have := hpre q hq
    rw [rangesMergeable, hloose.sizes q (List.mem_append_left _ hq)]
    simp only [decide_eq_true_eq]
    omega
  refine ⟨?_, hloose⟩
  simp only [releaseLeft, hleft, hright, ok_bind, hfilter]
  rfl

/-- The range is joined with the one on its right. -/
theorem releaseRight_merge {linked : Bool} {u : Avl ℤ} (left : Option ℤ) (h : Loose ext pre (r :: post) a n)
    (hr : a + (n : ℤ) = r.1) (hn : n + r.2 < 2 ^ 63) (hnd : r.1 ∉ (pre ++ post).map Prod.fst)
    (hu : (if linked then avlDelete ext.addrTree (.node r.1)
      else avlReplace c.debug ext.addrTree (.node r.1) (.node a) (compareRangeByAddr a)) = .ok u) :
    ∃ ext', releaseRight c ext a linked left (some r.1) = .ok ext' ∧ SamePages ext ext' ∧
      Loose ext' pre post a (n + r.2) ∧ ext'.addrTree = u := by
  have hmerge : rangesMergeable ext a r.1 = true := by simp [rangesMergeable, h.self, hr]
  obtain ⟨t, ht, hloose⟩ := Loose.of_delete h.size h.sizes hnd
  have hsum : sizeAdd n r.2 = n + r.2 := sizeAdd_of_lt (by omega)
  have hsize : ext.size r.1 = r.2 := h.sizes r (by simp)
  have hna : a ∉ (pre ++ post).map Prod.fst := by
    have := h.notMem
    simp only [List.map_append, List.map_cons, List.mem_append, List.mem_cons, not_or] at this ⊢
    exact ⟨this.1, this.2.2⟩
  have hself : Loose (ext.withSizeTree t) pre post a n := ⟨hloose.size, hloose.sizes, h.self, hna⟩
  refine ⟨((ext.withSizeTree t).setSize a (n + r.2)).withAddrTree u, ?_, ⟨rfl, rfl, rfl, rfl, rfl⟩,
    ?_, rfl⟩
  · simp only [releaseRight, Option.filter_some, hmerge, if_true, ht, ok_bind, withSizeTree_size,
      h.self, hsize, hsum, setSize_addrTree, withSizeTree_addrTree]
    cases linked <;> simp only [Bool.false_eq_true, if_false, if_true] at hu ⊢ <;> rw [hu] <;> rfl
  · obtain ⟨h₁, h₂, h₃, h₄⟩ := hself.resize (m := n + r.2)
    exact ⟨h₁, h₂, h₃, h₄⟩

/-- The address tree links both ranges: the one on the right leaves it. -/
theorem unlink_right (haddr : Lists ext.addrTree ((pre ++ (a, n) :: r :: post).map Prod.fst)) :
    ∃ u, avlDelete ext.addrTree (.node r.1) = .ok u ∧
      Lists u ((pre ++ (a, n) :: post).map Prod.fst) := by
  have haddr' : Lists ext.addrTree ((pre.map Prod.fst ++ [a]) ++ r.1 :: post.map Prod.fst) := by
    simpa using haddr
  obtain ⟨u, hu, hlist⟩ := avlDelete_spec haddr'
  exact ⟨u, hu, by simpa using hlist⟩

/-- The address tree links the range on the right only: the new one takes its place. -/
theorem replace_right (debug : Bool) (haddr : Lists ext.addrTree ((pre ++ r :: post).map Prod.fst))
    (ha : a ∉ (pre ++ r :: post).map Prod.fst) (hpre : ∀ q ∈ pre, q.1 < a)
    (hpost : ∀ q ∈ post, a < q.1) :
    ∃ u, avlReplace debug ext.addrTree (.node r.1) (.node a) (compareRangeByAddr a) = .ok u ∧
      Lists u ((pre ++ (a, n) :: post).map Prod.fst) := by
  have haddr' : Lists ext.addrTree (pre.map Prod.fst ++ r.1 :: post.map Prod.fst) := by
    simpa using haddr
  obtain ⟨u, hu, hlist⟩ := avlReplace_spec debug haddr'
    (by simpa using ha)
    (fun p hp => by
      obtain ⟨q, hq, rfl⟩ := List.mem_map.mp (List.mem_of_getLast? hp)
      exact (compareRangeByAddr_pos.mpr (hpre q hq)).le)
    (fun p hp => by
      obtain ⟨q, hq, rfl⟩ := List.mem_map.mp (List.mem_of_head? hp)
      exact (compareRangeByAddr_neg.mpr (hpost q hq)).le)
  exact ⟨u, hu, by simpa using hlist⟩

/-- No range on the right is touched. -/
theorem Loose.filter_right (h : Loose ext pre post a n)
    (hpost : ∀ q ∈ post, a + (n : ℤ) < q.1) :
    (post.map Prod.fst).head?.filter (rangesMergeable ext a) = none := by
  rw [Option.filter_eq_none_iff]
  intro x hx
  obtain ⟨q, hq, rfl⟩ := List.mem_map.mp (List.mem_of_head? hx)
  have := hpost q hq
  rw [rangesMergeable, h.self]
  simp only [decide_eq_true_eq]
  omega

/-- A range between others is linked by address. -/
theorem releaseRight_insert (h : Loose ext pre post a n) (hpost : ∀ q ∈ post, a + (n : ℤ) < q.1)
    (haddr : Lists ext.addrTree ((pre ++ post).map Prod.fst)) (hpre : ∀ q ∈ pre, q.1 < a) :
    ∃ ext', releaseRight c ext a false (pre.map Prod.fst).getLast? (post.map Prod.fst).head? =
        .ok ext' ∧ SamePages ext ext' ∧ Loose ext' pre post a n ∧
      Lists ext'.addrTree ((pre ++ (a, n) :: post).map Prod.fst) := by
  have hfilter := h.filter_right hpost
  obtain ⟨hinit, hbal⟩ := haddr.init h.notMem
  rw [List.map_append] at hinit
  have hnot : a ∉ pre.map Prod.fst ++ post.map Prod.fst := by simpa using h.notMem
  have hneg : ∀ x ∈ post.map Prod.fst, compareRangeByAddr a x < 0 := by
    intro x hx
    obtain ⟨q, hq, rfl⟩ := List.mem_map.mp hx
    have := hpost q hq
    exact compareRangeByAddr_neg.mpr (by omega)
  have hloose (t : Avl ℤ) : Loose (ext.withAddrTree t) pre post a n :=
    ⟨h.size, h.sizes, h.self, h.notMem⟩
  rcases List.eq_nil_or_concat pre with rfl | ⟨ps, p, rfl⟩
  · obtain ⟨t, ht, hlist⟩ := avlPrepend_spec c.debug hinit hnot hbal
      (fun x hx => hneg x (List.mem_of_head? hx))
    refine ⟨ext.withAddrTree t, ?_, ⟨rfl, rfl, rfl, rfl, rfl⟩, hloose t, by simpa using hlist⟩
    rw [releaseRight, hfilter]
    simp [ht]
  · have hpos : ∀ x ∈ (ps.concat p).map Prod.fst, 0 < compareRangeByAddr a x := by
      intro x hx
      obtain ⟨q, hq, rfl⟩ := List.mem_map.mp hx
      exact compareRangeByAddr_pos.mpr (hpre q hq)
    obtain ⟨t, ht, hlist⟩ := avlInsert_spec c.debug hinit hnot hbal (compareRangeByAddr_cases a)
      hpos hneg
    refine ⟨ext.withAddrTree t, ?_, ⟨rfl, rfl, rfl, rfl, rfl⟩, hloose t, by simpa using hlist⟩
    rw [releaseRight, hfilter]
    simp [ht]

/-- The size of a range that may be missing. -/
def sizeOf (r : Option (ℤ × ℕ)) : ℕ := r.elim 0 Prod.snd

@[simp] theorem sizeOf_none : sizeOf none = 0 := rfl
@[simp] theorem sizeOf_some : sizeOf (some r) = r.2 := rfl

/-- The second half of `release_page_range`. -/
theorem releaseRight_spec {linked : Bool} {R : Option (ℤ × ℕ)}
    (h : Loose ext pre (R.toList ++ post) a n) (hn : n + sizeOf R < 2 ^ 63)
    (hR : ∀ r ∈ R, a + (n : ℤ) = r.1) (hRr : ∀ r ∈ R, r.1 ∉ (pre ++ post).map Prod.fst)
    (hpre : ∀ q ∈ pre, q.1 < a) (hpost : ∀ q ∈ post, a + (n : ℤ) < q.1)
    (haddr : Lists ext.addrTree ((pre ++ (if linked then [(a, n)] else []) ++
      (R.toList ++ post)).map Prod.fst))
    (hleft : linked = false → left = (pre.map Prod.fst).getLast?) :
    ∃ ext', releaseRight c ext a linked left ((R.toList ++ post).map Prod.fst).head? = .ok ext' ∧
      SamePages ext ext' ∧ Loose ext' pre post a (n + sizeOf R) ∧
      Lists ext'.addrTree ((pre ++ (a, n + sizeOf R) :: post).map Prod.fst) := by
  cases R with
  | none =>
    simp only [Option.toList_none, List.nil_append, sizeOf_none, Nat.add_zero] at h haddr ⊢
    cases linked with
    | true =>
      have hf := h.filter_right hpost
      refine ⟨ext, ?_, ⟨rfl, rfl, rfl, rfl, rfl⟩, h, by simpa using haddr⟩
      rw [releaseRight, hf]
      rfl
    | false =>
      rw [hleft rfl]
      exact releaseRight_insert h hpost (by simpa using haddr) hpre
  | some r =>
    simp only [Option.toList_some, List.cons_append, List.nil_append, sizeOf_some] at h haddr hn ⊢
    have hr := hR r rfl
    obtain ⟨u, hu, hlist⟩ : ∃ u, (if linked then avlDelete ext.addrTree (.node r.1)
        else avlReplace c.debug ext.addrTree (.node r.1) (.node a) (compareRangeByAddr a)) = .ok u ∧
        Lists u ((pre ++ (a, n + r.2) :: post).map Prod.fst) := by
      cases linked with
      | true =>
        have haddr' : Lists ext.addrTree ((pre ++ (a, n) :: r :: post).map Prod.fst) := by
          simpa using haddr
        simpa using unlink_right haddr'
      | false =>
        simp only [Bool.false_eq_true, if_false, List.append_nil] at haddr ⊢
        refine replace_right c.debug haddr h.notMem hpre fun q hq => ?_
        have := hpost q hq
        omega
    obtain ⟨ext', hrun, hsame, hloose, htree⟩ := releaseRight_merge left h hr hn
      (hRr r rfl) hu
    exact ⟨ext', hrun, hsame, hloose, htree ▸ hlist⟩

/-- Released pages are joined with the ranges `L` and `R` which they touch. -/
theorem Ranges.release (L R : Option (ℤ × ℕ))
    (h : Ranges ext (pre ++ L.toList ++ (R.toList ++ post))) (hn : 0 < n)
    (hsum : sizeOf L + n + sizeOf R < 2 ^ 63) (hpre : ∀ q ∈ pre, q.1 + (q.2 : ℤ) < a)
    (hL : ∀ l ∈ L, l.1 + (l.2 : ℤ) = a) (hR : ∀ r ∈ R, a + (n : ℤ) = r.1)
    (hpost : ∀ q ∈ post, a + (n : ℤ) < q.1) :
    ∃ ext', releasePageRange c ext a n =
        markPages c ext' (addrToPagenr c ext' a) (c.int (n / 512 : ℕ)) pageFree ∧
      SamePages ext ext' ∧
      Ranges ext' (pre ++ (L.elim a Prod.fst, sizeOf L + n + sizeOf R) :: post) := by
  have hsub : (pre ++ post).Sublist (pre ++ L.toList ++ (R.toList ++ post)) :=
    (List.sublist_append_left _ _).append (List.sublist_append_right _ _)
  have happ : (pre ++ post).Pairwise fun x y => x.1 + (x.2 : ℤ) < y.1 := h.apart.sublist hsub
  have hRp : ∀ q ∈ R.toList ++ post, a + (n : ℤ) ≤ q.1 := by
    intro q hq
    rcases List.mem_append.mp hq with hq | hq
    · exact (hR q (by simpa using hq)).le
    · exact (hpost q hq).le
  have hRr : ∀ r ∈ R, r.1 ∉ (pre ++ post).map Prod.fst := by
    intro r hr hm
    obtain ⟨q, hq, hqr⟩ := List.mem_map.mp hm
    have hra := hR r hr
    rcases List.mem_append.mp hq with hq | hq
    · have := hpre q hq
      omega
    · have := hpost q hq
      omega
  -- the left neighbour
  obtain ⟨ext₁, linked, left, hrun₁, hsame₁, hloose₁, haddr₁, hleft₁⟩ : ∃ ext₁ linked left,
      releaseLeft (ext.setSize a n) a = .ok (ext₁, L.elim a Prod.fst, linked, left,
        ((R.toList ++ post).map Prod.fst).head?) ∧ SamePages ext ext₁ ∧
      Loose ext₁ pre (R.toList ++ post) (L.elim a Prod.fst) (sizeOf L + n) ∧
      Lists ext₁.addrTree ((pre ++ (if linked then [(L.elim a Prod.fst, sizeOf L + n)] else []) ++
        (R.toList ++ post)).map Prod.fst) ∧
      (linked = false → left = (pre.map Prod.fst).getLast?) := by
    cases L with
    | none =>
      simp only [Option.toList_none, List.append_nil] at h
      obtain ⟨hrun, hloose⟩ := releaseLeft_none (n := n) h hpre (fun q hq => by
        have := hRp q hq
        omega)
      exact ⟨_, false, _, hrun, ⟨rfl, rfl, rfl, rfl, rfl⟩, by simpa using hloose,
        by simpa using h.addr, fun _ => rfl⟩
    | some l =>
      have h' : Ranges ext (pre ++ l :: (R.toList ++ post)) := by simpa using h
      obtain ⟨ext₁, hrun, hsame, hloose, haddr⟩ := releaseLeft_some (n := n) h' (hL l rfl)
        (by simp only [sizeOf_some] at hsum; omega) (fun q hq => by
          have := hRp q hq
          omega)
      exact ⟨ext₁, true, _, hrun, hsame, hloose, by simpa using haddr, by simp⟩
  have hend : L.elim a Prod.fst + ((sizeOf L + n : ℕ) : ℤ) = a + n := by
    cases L with
    | none => simp
    | some l =>
      have := hL l rfl
      simp only [Option.elim_some, sizeOf_some]
      omega
  have hlow : ∀ q ∈ pre, q.1 + (q.2 : ℤ) < L.elim a Prod.fst := by
    intro q hq
    cases L with
    | none => exact hpre q hq
    | some l =>
      have hpl := List.pairwise_append.mp (List.pairwise_append.mp h.apart).1
      exact hpl.2.2 q hq l (by simp)
  have hhigh : ∀ q ∈ post, L.elim a Prod.fst + ((sizeOf L + n + sizeOf R : ℕ) : ℤ) < q.1 := by
    intro q hq
    cases R with
    | none =>
      rw [sizeOf_none, Nat.add_zero, hend]
      exact hpost q hq
    | some r =>
      have hrp := (List.pairwise_append.mp (List.pairwise_append.mp h.apart).2.1).2.2 r (by simp) q hq
      have hra := hR r rfl
      rw [Nat.cast_add, ← add_assoc, hend, hra]
      exact hrp
  -- the right neighbour
  obtain ⟨ext₂, hrun₂, hsame₂, hloose₂, haddr₂⟩ := releaseRight_spec (c := c) hloose₁
    hsum (fun r hr => hend.trans (hR r hr)) hRr (fun q hq => by have := hlow q hq; omega)
    (fun q hq => by rw [hend]; exact hpost q hq) haddr₁ hleft₁
  obtain ⟨t, ht, hranges⟩ := hloose₂.link haddr₂
    (by
      obtain ⟨h₁, h₂, h₃⟩ := List.pairwise_append.mp happ
      refine List.pairwise_append.mpr ⟨h₁, List.pairwise_cons.mpr ⟨hhigh, h₂⟩, fun x hx y hy => ?_⟩
      rcases List.mem_cons.mp hy with rfl | hy
      · exact hlow x hx
      · exact h₃ x hx y hy)
    (fun q hq => by
      rcases List.mem_cons.mp (List.perm_middle.mem_iff.mp hq) with rfl | hq
      · exact ⟨by simp only; omega, hsum⟩
      · exact h.pos q (hsub.subset hq))
  refine ⟨ext₂.withSizeTree t, ?_, (hsame₁.trans hsame₂).trans ⟨rfl, rfl, rfl, rfl, rfl⟩, hranges⟩
  simp only [releasePageRange, hrun₁, ok_bind, hrun₂, ht]

end Release

end Libevl.Heap
