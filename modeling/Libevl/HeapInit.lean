import Libevl.HeapFree

/-!
# New extents

An accepted area starts as one free tile. A heap starts with one such extent, and
further ones go behind it.
-/
namespace Libevl.Heap
open AvlTree Tiling PageRing

/-- A memory area. -/
def Area (mem : ℤ) (size : ℕ) : Prop := 0 < mem ∧ mem + (size : ℤ) ≤ 2 ^ 64

section Extent

variable {c : Cfg} {mem : ℤ} {size : ℕ}

/-- The overhead of an extent. -/
def overheadOf (size : ℕ) : ℕ := alignTo (sizeAdd (size * 12) (160 * 512) / (512 + 12)) 16

theorem overheadOf_le (size : ℕ) : overheadOf size ≤ 2 ^ 56 := by
  have hdiv : sizeAdd (size * 12) (160 * 512) / (512 + 12) < 2 ^ 55 + 2 ^ 40 := by
    have : sizeAdd (size * 12) (160 * 512) < 2 ^ 64 := Nat.mod_lt _ (by decide)
    omega
  rw [overheadOf, alignTo_eq (by omega)]
  omega

/-- The extent before its pages are released. -/
def bareExtent (raw : HeapExtent) (mem : ℤ) (size : ℕ) : HeapExtent :=
  { mem := mem, membase := mem + overheadOf size, memlim := mem + size,
    nrpages := (sizeSub size (overheadOf size) / 512 : ℕ), pagemap := fun _ => ⟨0, 0, 0, 0⟩,
    addrTree := avlInit raw.addrTree, sizeTree := avlInit raw.sizeTree, size := raw.size }

theorem bareExtent_ranges (raw : HeapExtent) (mem : ℤ) (size : ℕ) :
    Ranges (bareExtent raw mem size) [] :=
  ⟨avlInit_spec _, ⟨[], avlInit_spec _, .nil, .nil⟩, by simp, .nil, by simp⟩

/-- What an area leaves for pages is a number of them that an extent may have. -/
def Accepted (size : ℕ) : Prop :=
  sizeSub size (overheadOf size) % 512 = 0 ∧ 512 ≤ sizeSub size (overheadOf size) ∧
    sizeSub size (overheadOf size) ≤ 4294967295 - 512 + 1

theorem Accepted.le (h : Accepted size) (hsize : size < 2 ^ 64) : overheadOf size ≤ size := by
  have hover := overheadOf_le size
  obtain ⟨-, -, hmax⟩ := h
  by_contra hlt
  have : sizeSub size (overheadOf size) = size + (2 ^ 64 - overheadOf size) := by
    rw [sizeSub, Nat.mod_eq_of_lt (by omega)]
  omega

theorem addExtent_eq (raw : HeapExtent) (mem : ℤ) (size : ℕ) : addExtent c raw mem size =
    if sizeSub size (overheadOf size) % 512 ≠ 0 then .ok none
    else if sizeSub size (overheadOf size) < 512 ∨
      4294967295 - 512 + 1 < sizeSub size (overheadOf size) then .ok none
    else releasePageRange c (bareExtent raw mem size) (bareExtent raw mem size).membase
      (sizeSub size (overheadOf size)) >>= fun ext =>
        .ok (some (ext, sizeSub size (overheadOf size))) := rfl

theorem addExtent_refused (raw : HeapExtent) (mem : ℤ) (h : ¬ Accepted size) :
    addExtent c raw mem size = .ok none := by
  rw [addExtent_eq]
  unfold Accepted at h
  by_cases hmod : sizeSub size (overheadOf size) % 512 = 0
  · rw [if_neg (by simpa using hmod), if_pos (by omega)]
  · exact if_pos hmod

/-- An accepted area becomes one free tile. -/
theorem addExtent_accepted (raw : HeapExtent) (mem : ℤ) (hsize : size < 2 ^ 64)
    (h : Accepted size) : ∃ ext n, addExtent c raw mem size = .ok (some (ext, 512 * n)) ∧
      sizeSub size (overheadOf size) = 512 * n ∧ ext.mem = mem ∧
      ext.membase = mem + overheadOf size ∧ ext.memlim = mem + size ∧ Holds c ext [.free n] := by
  have hle := h.le hsize
  have huser : sizeSub size (overheadOf size) = size - overheadOf size := sizeSub_of_le hle hsize
  obtain ⟨hmod, hmin, hmax⟩ := h
  obtain ⟨n, hn⟩ : ∃ n, sizeSub size (overheadOf size) = 512 * n :=
    ⟨sizeSub size (overheadOf size) / 512, by omega⟩
  have hpages : (bareExtent raw mem size).nrpages = n := by
    change ((sizeSub size (overheadOf size) / 512 : ℕ) : ℤ) = n
    omega
  have hnone : Ranges (bareExtent raw mem size) ([] ++ Option.toList none ++
      (Option.toList none ++ [])) := bareExtent_ranges raw mem size
  obtain ⟨ext, hrun, hsame, hranges⟩ := Ranges.release (c := c) (a := mem + overheadOf size)
    (n := 512 * n) none none hnone (by omega) (by simp only [sizeOf_none]; omega) (by simp)
    (by simp) (by simp) (by simp)
  have hmembase : ext.membase = mem + overheadOf size := hsame.membase
  have hnrpages : ext.nrpages = n := hsame.nrpages.trans hpages
  have hpage : addrToPagenr c ext (mem + overheadOf size) = (0 : ℕ) := by
    rw [addrToPagenr, hmembase, sub_self]
    exact int_of_lt (by decide) (by decide)
  have hcount : c.int (512 * n / 512 : ℕ) = n := by
    rw [int_of_lt (by omega) (by omega)]
    omega
  have hhas : ∀ q : ℤ, (0 : ℕ) ≤ q → q < (0 : ℕ) + (n : ℤ) → ext.HasPage q := by
    intro q h₁ h₂
    rw [HeapExtent.HasPage, hnrpages]
    omega
  obtain ⟨m, hmark, -, -, -, htypes⟩ := markPages_spec (c := c) pageFree hhas
  rw [hpage, hcount, hmark] at hrun
  have hunfold : addExtent c raw mem size = releasePageRange c (bareExtent raw mem size)
      (mem + overheadOf size) (512 * n) >>= fun ext => .ok (some (ext, 512 * n)) := by
    rw [addExtent_eq, if_neg (by simpa using hmod), if_neg (by omega), ← hn]
    rfl
  refine ⟨ext.withPagemap m, n, by rw [hunfold, hrun]; rfl, hn, hsame.mem, hmembase,
    hsame.memlim, ?_⟩
  have hone : frees ext.membase 0 [.free n] = [(mem + overheadOf size, 512 * n)] := by
    simp [hmembase]
  refine ⟨?_, ?_, ?_, ?_, ?_, ?_⟩
  · change ext.memlim = ext.membase + 512 * ext.nrpages
    rw [hnrpages, hmembase, show ext.memlim = mem + size from hsame.memlim]
    omega
  · change ext.nrpages = _
    rw [hnrpages]
    rfl
  · change ext.nrpages < _
    omega
  · intro s hs
    obtain rfl := List.mem_singleton.mp hs
    change 0 < n
    omega
  · refine Ranges.withPagemap ?_ m
    change Ranges ext (frees ext.membase 0 [.free n])
    rw [hone]
    simpa using hranges
  · intro x hx
    obtain rfl := List.mem_singleton.mp hx
    intro hdebug q h₁ h₂
    exact htypes hdebug q (by omega) (by omega)

/-- An area is refused, or becomes one free tile. -/
theorem addExtent_spec (raw : HeapExtent) (ha : Area mem size) : addExtent c raw mem size = .ok none ∨
    ∃ ext n, addExtent c raw mem size = .ok (some (ext, 512 * n)) ∧ ext.mem = mem ∧
      mem ≤ ext.membase ∧ ext.memlim = mem + size ∧ 0 < n ∧ Holds c ext [.free n] := by
  obtain ⟨h₀, h₁⟩ := ha
  by_cases h : Accepted size
  · obtain ⟨ext, n, hrun, hn, hmem, hbase, hlim, hold⟩ :=
      addExtent_accepted (c := c) raw mem (by omega) h
    have hmin := h.2.1
    exact .inr ⟨ext, n, hrun, hmem, by omega, hlim, by omega, hold⟩
  · exact .inl (addExtent_refused raw mem h)

theorem Holds.nonempty {ext : HeapExtent} {n : ℕ} (hold : Holds c ext [.free n]) (hn : 0 < n) :
    ext.membase < ext.memlim := by
  have hcover : cover Seg.pages [.free n] = n := Nat.add_zero n
  have hlimit := hold.limit
  have htotal := hold.total
  rw [hcover] at htotal
  omega

end Extent

section Heap

variable {c : Cfg} {h : EvlHeap} {abs : Abs} {mem : ℤ} {size : ℕ}

/-- One extent with one free tile. -/
def freshAbs (ext : HeapExtent) (n : ℕ) : Abs := ⟨[(ext, [.free n])], fun _ => [], fun _ => 0⟩

/-- `evl_init_heap_unlocked`. -/
theorem init_spec (raw : HeapExtent) (ha : Area mem size) : evlInitHeapUnlocked c raw mem size = .ok none ∨
    ∃ h ext n, evlInitHeapUnlocked c raw mem size = .ok (some h) ∧
      HeapInv c h (freshAbs ext n) ∧ h.usedSize = 0 := by
  rcases addExtent_spec (c := c) raw ha with hrun | ⟨ext, n, hrun, hmem, hbase, hlim, hn, hold⟩
  · left
    simp only [evlInitHeapUnlocked, hrun, ok_bind]
    rfl
  · right
    refine ⟨⟨[ext], size, 512 * n, 0, fun _ => -1, []⟩, ext, n, ?_, ?_, rfl⟩
    · simp only [evlInitHeapUnlocked, hrun, ok_bind]
      rfl
    · have hn' : 512 * n < 2 ^ 64 := by
        have h₁ := hold.total
        have h₂ := hold.bound
        simp only [cover_cons, cover_nil] at h₁
        rw [show Seg.pages (.free n) = n from rfl] at h₁
        omega
      refine ⟨rfl, by simpa [freshAbs] using hold, List.pairwise_singleton .., ?_, ?_, ?_⟩
      · intro x hx
        obtain rfl := List.mem_singleton.mp hx
        obtain ⟨h₀, h₁⟩ := ha
        have hpos := hold.nonempty hn
        simp only
        omega
      · refine ⟨fun _ _ => rfl, fun _ _ _ _ => .nil, fun i _ k x hx y => ?_, fun _ _ hne => ?_⟩
        · have hx' := List.mem_of_getElem? hx
          obtain rfl := List.mem_singleton.mp hx'
          simp [freshAbs]
        · exact absurd rfl hne
      · have hcover : cover Seg.pages [.free n] = n := Nat.add_zero n
        simp only [freshAbs, List.map_cons, List.map_nil, List.sum_cons, List.sum_nil, Nat.add_zero,
          hcover]
        exact (Nat.mod_eq_of_lt hn').symm

/-- An extent goes behind the others. -/
def Abs.extend (abs : Abs) (ext : HeapExtent) (n : ℕ) : Abs :=
  { abs with pairs := abs.pairs ++ [(ext, [.free n])] }

theorem Abs.extend_blocks (abs : Abs) (ext : HeapExtent) (n : ℕ) :
    (abs.extend ext n).blocks = abs.blocks := by
  rw [Abs.blocks, Abs.extend, List.flatMap_append]
  exact List.append_nil _

theorem Rings.extend {ext : HeapExtent} {n : ℕ} (hr : Rings h abs) {h' : EvlHeap}
    (hb : h'.buckets = h.buckets) : Rings h' (abs.extend ext n) := by
  have hcase {k : ℕ} {x : HeapExtent × List Seg} (hx : (abs.extend ext n).pairs[k]? = some x) :
      abs.pairs[k]? = some x ∨ k = abs.pairs.length ∧ x = (ext, [.free n]) := by
    rcases Nat.lt_or_ge k abs.pairs.length with hlt | hge
    · left
      rwa [Abs.extend, List.getElem?_append_left hlt] at hx
    · right
      rw [Abs.extend, List.getElem?_append_right hge] at hx
      obtain ⟨h₁, h₂⟩ := List.getElem?_eq_some_iff.mp hx
      simp only [List.length_singleton] at h₁
      exact ⟨by omega, by simpa using h₂.symm⟩
  refine ⟨fun i hi => hb ▸ hr.head i hi, fun i hi x hx => ?_, fun i hi k x hx y => ?_, fun i hi hne => ?_⟩
  · rcases hcase hx with hx | ⟨hlen, -⟩
    · exact hr.ring i hi x hx
    · by_cases hnil : abs.ring i = []
      · rw [show (abs.extend ext n).ring i = abs.ring i from rfl, hnil]
        exact .nil
      · have := hr.home i hi hnil
        exact absurd hlen this.ne
  · rcases hcase hx with hx | ⟨rfl, rfl⟩
    · exact hr.mem i hi k x hx y
    · refine iff_of_false (by simp) ?_
      rintro ⟨hlen, hy⟩
      exact absurd hlen (hr.home i hi (List.ne_nil_of_mem hy)).ne'
  · exact (hr.home i hi hne).trans_le (by simp [Abs.extend])

/-- `evl_extend_heap_unlocked`, with an area that no other extent uses. -/
theorem extend_spec (raw : HeapExtent) (hi : HeapInv c h abs) (ha : Area mem size)
    (hfresh : ∀ ext ∈ h.extents, ext.memlim ≤ mem ∨ mem + size ≤ ext.mem) :
    evlExtendHeapUnlocked c h raw mem size = .ok none ∨
      ∃ h' ext n, evlExtendHeapUnlocked c h raw mem size = .ok (some h') ∧
        HeapInv c h' (abs.extend ext n) ∧ h'.usedSize = h.usedSize := by
  rcases addExtent_spec (c := c) raw ha with hrun | ⟨ext, n, hrun, hmem, hbase, hlim, hn, hold⟩
  · left
    simp only [evlExtendHeapUnlocked, hrun, ok_bind]
    rfl
  · right
    refine ⟨⟨h.extents ++ [ext], sizeAdd h.rawSize size, sizeAdd h.usableSize (512 * n),
      h.usedSize, h.buckets, h.uses⟩, ext, n, ?_, ?_, rfl⟩
    · simp only [evlExtendHeapUnlocked, hrun, ok_bind]
      rfl
    · refine ⟨?_, fun x hx => ?_, ?_, fun x hx => ?_, hi.rings.extend rfl, ?_⟩
      · simp [Abs.extend, hi.extents]
      · rcases List.mem_append.mp hx with hx | hx
        · exact hi.holds x hx
        · obtain rfl := List.mem_singleton.mp hx
          exact hold
      · refine List.pairwise_append.mpr ⟨hi.areas, List.pairwise_singleton .., fun x hx y hy => ?_⟩
        obtain rfl := List.mem_singleton.mp hy
        rw [hmem, hlim]
        exact hfresh x.1 (by rw [hi.extents]; exact List.mem_map_of_mem hx)
      · rcases List.mem_append.mp hx with hx | hx
        · exact hi.headers x hx
        · obtain rfl := List.mem_singleton.mp hx
          obtain ⟨h₀, h₁⟩ := ha
          have hpos := hold.nonempty hn
          simp only
          omega
      · have hcover : cover Seg.pages [.free n] = n := Nat.add_zero n
        simp only [Abs.extend, List.map_append, List.map_cons, List.map_nil, List.sum_append,
          List.sum_cons, List.sum_nil, Nat.add_zero, hcover, sizeAdd, hi.usable]
        omega

end Heap

end Libevl.Heap
