import Libevl.HeapLayout
import Libevl.Transition

/-!
# The invariant of the heap

Every extent is laid out in tiles. The pages of one block size form one ring, and
all of them lie in one extent, its home. The live blocks are the blocks of the
layouts. An operation exchanges a few tiles of one extent and relinks one ring.
-/
namespace Libevl.Heap
open Tiling PageRing

/-- A block that was handed out, and the size that was asked for. -/
structure Block where
  addr : ℤ
  size : ℕ
  deriving DecidableEq, Repr

/-- The memory that the block takes. -/
def Block.key (b : Block) : ℤ × ℕ := (b.addr, (blockSize b.size).1)

/-- A heap with the blocks that were handed out and not freed yet. -/
structure State where
  heap : EvlHeap
  live : List Block

/-- The extents with their layouts; for each block size the ring of its pages, and the index of
the extent in which they lie. -/
structure Abs where
  pairs : List (HeapExtent × List Seg)
  ring : ℕ → List ℤ
  home : ℕ → ℕ

/-- The blocks of all layouts. -/
def Abs.blocks (abs : Abs) : List (ℤ × ℕ) :=
  abs.pairs.flatMap fun x => blocksOf x.1.membase 0 x.2

/-- The bucket lists hold the bucket pages. -/
structure Rings (h : EvlHeap) (abs : Abs) : Prop where
  head : ∀ i < 5, h.buckets i = (abs.ring i).head?.getD (-1)
  ring : ∀ i < 5, ∀ x, abs.pairs[abs.home i]? = some x →
    IsRing (nextOf x.1.pagemap) (prevOf x.1.pagemap) (abs.ring i)
  mem : ∀ i < 5, ∀ j x, abs.pairs[j]? = some x → ∀ y,
    IsBucket (place Seg.pages 0 x.2) (i + 4) y ↔ j = abs.home i ∧ y ∈ abs.ring i
  home : ∀ i < 5, abs.ring i ≠ [] → abs.home i < abs.pairs.length

/-- The invariant of the heap alone. -/
structure HeapInv (c : Cfg) (h : EvlHeap) (abs : Abs) : Prop where
  extents : h.extents = abs.pairs.map Prod.fst
  holds : ∀ x ∈ abs.pairs, Holds c x.1 x.2
  areas : abs.pairs.Pairwise fun x y => x.1.memlim ≤ y.1.mem ∨ y.1.memlim ≤ x.1.mem
  headers : ∀ x ∈ abs.pairs, 0 < x.1.mem ∧ x.1.mem ≤ x.1.membase ∧ x.1.membase < x.1.memlim ∧
    x.1.memlim ≤ 2 ^ 64
  rings : Rings h abs
  usable : h.usableSize = (abs.pairs.map fun x => 512 * cover Seg.pages x.2).sum % 2 ^ 64

/-- The invariant of the heap and its live blocks. -/
structure Inv (c : Cfg) (s : State) (abs : Abs) : Prop extends HeapInv c s.heap abs where
  live : (s.live.map Block.key).Perm abs.blocks
  used : s.heap.usedSize = (s.live.map fun b => b.key.2).sum % 2 ^ 64
  sizes : ∀ b ∈ s.live, 0 < b.size ∧ b.size ≤ 2 ^ 64 - 512

section Update

variable {c : Cfg} {h h' : EvlHeap} {abs : Abs} {i j : ℕ} {ext ext' : HeapExtent}
  {segs segs' : List Seg} {L : List ℤ}

/-- One extent and its layout change. -/
def Abs.set (abs : Abs) (j : ℕ) (ext : HeapExtent) (segs : List Seg) : Abs :=
  { abs with pairs := abs.pairs.set j (ext, segs) }

/-- One ring changes, and lies in the extent `j`. -/
def Abs.relink (abs : Abs) (i j : ℕ) (L : List ℤ) : Abs :=
  { abs with ring := Function.update abs.ring i L, home := Function.update abs.home i j }

/-- The extents lie in areas that do not overlap. -/
def Disjoint (pairs : List (HeapExtent × List Seg)) : Prop :=
  pairs.Pairwise fun x y => x.1.memlim ≤ y.1.mem ∨ y.1.memlim ≤ x.1.mem

theorem disjoint_congr {pairs pairs' : List (HeapExtent × List Seg)}
    (hf : (pairs.map fun x => (x.1.mem, x.1.memlim)) = pairs'.map fun x => (x.1.mem, x.1.memlim))
    (h : Disjoint pairs) : Disjoint pairs' := by
  have hmap (l : List (HeapExtent × List Seg)) : Disjoint l ↔
      (l.map fun x => (x.1.mem, x.1.memlim)).Pairwise fun a b => a.2 ≤ b.1 ∨ b.2 ≤ a.1 := by
    rw [List.pairwise_map]
    rfl
  rw [hmap, hf] at h
  exact (hmap pairs').mpr h

theorem map_set_same {α β : Type*} {f : α → β} {l : List α} {x : α} (x' : α)
    (hj : l[j]? = some x) (hf : f x' = f x) : (l.set j x').map f = l.map f := by
  obtain ⟨hlt, rfl⟩ := List.getElem?_eq_some_iff.mp hj
  have hlen : j < (l.map f).length := by simpa using hlt
  have hget : f l[j] = (l.map f)[j] := (List.getElem_map f).symm
  rw [List.map_set, hf, hget, List.set_getElem_self]

theorem flatMap_set_perm {α β : Type*} {f : α → List β} {l : List α} {x x' : α} {k : List β}
    (hj : l[j]? = some x) (hp : (f x').Perm (k ++ f x)) :
    ((l.set j x').flatMap f).Perm (k ++ l.flatMap f) := by
  obtain ⟨hlt, rfl⟩ := List.getElem?_eq_some_iff.mp hj
  have hl : l = l.take j ++ l[j] :: l.drop (j + 1) := by simp
  rw [List.set_eq_take_append_cons_drop, if_pos hlt]
  nth_rewrite 3 [hl]
  simp only [List.flatMap_append, List.flatMap_cons]
  refine ((hp.append_right _).append_left _).trans ?_
  rw [List.append_assoc]
  exact List.perm_append_comm_assoc ..

/-- The blocks of one extent change. -/
theorem Abs.blocks_set {k : List (ℤ × ℕ)} (hj : abs.pairs[j]? = some (ext, segs))
    (hp : (blocksOf ext'.membase 0 segs').Perm (k ++ blocksOf ext.membase 0 segs)) :
    (abs.set j ext' segs').blocks.Perm (k ++ abs.blocks) :=
  flatMap_set_perm hj hp

/-- All extents stay where they are. -/
theorem HeapInv.update (hi : HeapInv c h abs) (hj : abs.pairs[j]? = some (ext, segs))
    (hplace : SamePlace ext ext') (hold : Holds c ext' segs')
    (hext : h'.extents = h.extents.set j ext') (husable : h'.usableSize = h.usableSize)
    {ring : ℕ → List ℤ} {home : ℕ → ℕ}
    (hr : Rings h' ⟨abs.pairs.set j (ext', segs'), ring, home⟩) :
    HeapInv c h' ⟨abs.pairs.set j (ext', segs'), ring, home⟩ := by
  have hmem := List.mem_of_getElem? hj
  have hcov : cover Seg.pages segs' = cover Seg.pages segs := by
    have h₁ := (hi.holds _ hmem).total
    have h₂ := hold.total
    have h₃ := hplace.nrpages
    simp only at h₁
    omega
  refine ⟨?_, ?_, ?_, ?_, hr, ?_⟩
  · rw [hext, hi.extents, List.map_set]
  · intro x hx
    rcases List.mem_or_eq_of_mem_set hx with hx | rfl
    · exact hi.holds x hx
    · exact hold
  · exact disjoint_congr (map_set_same (ext', segs') hj (by
      simp only [hplace.mem, hplace.memlim])).symm hi.areas
  · intro x hx
    rcases List.mem_or_eq_of_mem_set hx with hx | rfl
    · exact hi.headers x hx
    · simp only [hplace.mem, hplace.membase, hplace.memlim]
      exact hi.headers _ hmem
  · rw [husable, hi.usable]
    have hsame := map_set_same (f := fun x : HeapExtent × List Seg => 512 * cover Seg.pages x.2)
      (ext', segs') hj (by simp only [hcov])
    simp only [hsame]

/-- The pages of the block size `2 ^ (i + 4)` in an extent. -/
abbrev Pages (segs : List Seg) (i : ℕ) (y : ℤ) : Prop :=
  IsBucket (place Seg.pages 0 segs) (i + 4) y

/-- The two pagemaps have the same links at `y`. -/
def SameLinks (ext ext' : HeapExtent) (y : ℤ) : Prop :=
  nextOf ext'.pagemap y = nextOf ext.pagemap y ∧ prevOf ext'.pagemap y = prevOf ext.pagemap y

/-- No ring changes. -/
theorem Rings.keep (hr : Rings h abs) (hj : abs.pairs[j]? = some (ext, segs))
    (hb : h'.buckets = h.buckets) (hp : ∀ i < 5, ∀ y, Pages segs' i y ↔ Pages segs i y)
    (hl : ∀ i < 5, ∀ y, Pages segs i y → SameLinks ext ext' y) :
    Rings h' (abs.set j ext' segs') := by
  obtain ⟨hlt, -⟩ := List.getElem?_eq_some_iff.mp hj
  refine ⟨fun i hi => hb ▸ hr.head i hi, fun i hi x hx => ?_, fun i hi k x hx y => ?_, fun i hi hne => ?_⟩
  · simp only [Abs.set, List.getElem?_set] at hx
    split_ifs at hx with hjk
    · obtain rfl := Option.some.inj hx
      refine (hr.ring i hi _ (hjk ▸ hj)).congr (fun z hz => ?_) (fun z hz => ?_)
      · exact (hl i hi z ((hr.mem i hi j _ hj z).mpr ⟨hjk, hz⟩)).1
      · exact (hl i hi z ((hr.mem i hi j _ hj z).mpr ⟨hjk, hz⟩)).2
    · exact hr.ring i hi x hx
  · simp only [Abs.set, List.getElem?_set] at hx
    split_ifs at hx with hjk
    · obtain rfl := Option.some.inj hx
      subst hjk
      exact (hp i hi y).trans (hr.mem i hi j _ hj y)
    · exact hr.mem i hi k x hx y
  · simp only [Abs.set, List.length_set]
    exact hr.home i hi hne

/-- One ring changes. -/
theorem Rings.relink (hr : Rings h abs) (hi : i < 5) (hj : abs.pairs[j]? = some (ext, segs))
    (hb : h'.buckets = Function.update h.buckets i (L.head?.getD (-1)))
    (hring : IsRing (nextOf ext'.pagemap) (prevOf ext'.pagemap) L)
    (hp : ∀ y, Pages segs' i y ↔ y ∈ L)
    (hp' : ∀ k < 5, k ≠ i → ∀ y, Pages segs' k y ↔ Pages segs k y)
    (hl : ∀ k < 5, k ≠ i → ∀ y, Pages segs k y → SameLinks ext ext' y)
    (ho : ∀ k x, k ≠ j → abs.pairs[k]? = some x → ∀ y, ¬ Pages x.2 i y) :
    Rings h' ((abs.set j ext' segs').relink i j L) := by
  obtain ⟨hlt, -⟩ := List.getElem?_eq_some_iff.mp hj
  have hself : (abs.pairs.set j (ext', segs'))[j]? = some (ext', segs') := by simp [hlt]
  refine ⟨fun k hk => ?_, fun k hk x hx => ?_, fun k hk n x hx y => ?_, fun k hk hne => ?_⟩
  all_goals by_cases hki : k = i
  · subst hki
    simp only [hb, Abs.relink, Function.update_self]
  · simp only [hb, Abs.relink, Function.update_of_ne hki]
    exact hr.head k hk
  · subst hki
    simp only [Abs.relink, Abs.set, Function.update_self, hself] at hx ⊢
    obtain rfl := Option.some.inj hx
    exact hring
  · simp only [Abs.relink, Abs.set, Function.update_of_ne hki, List.getElem?_set] at hx ⊢
    split_ifs at hx with hjk
    · obtain rfl := Option.some.inj hx
      refine (hr.ring k hk _ (hjk ▸ hj)).congr (fun z hz => ?_) (fun z hz => ?_)
      · exact (hl k hk hki z ((hr.mem k hk j _ hj z).mpr ⟨hjk, hz⟩)).1
      · exact (hl k hk hki z ((hr.mem k hk j _ hj z).mpr ⟨hjk, hz⟩)).2
    · exact hr.ring k hk x hx
  · subst hki
    simp only [Abs.relink, Abs.set, Function.update_self, List.getElem?_set] at hx ⊢
    split_ifs at hx with hjn
    · obtain rfl := Option.some.inj hx
      subst hjn
      simpa using hp y
    · refine iff_of_false (ho n x (Ne.symm hjn) hx y) ?_
      rintro ⟨rfl, -⟩
      exact hjn rfl
  · simp only [Abs.relink, Abs.set, Function.update_of_ne hki, List.getElem?_set] at hx ⊢
    split_ifs at hx with hjn
    · obtain rfl := Option.some.inj hx
      subst hjn
      exact (hp' k hk hki y).trans (hr.mem k hk j _ hj y)
    · exact hr.mem k hk n x hx y
  · subst hki
    simpa [Abs.relink, Abs.set] using hlt
  · simp only [Abs.relink, Abs.set, Function.update_of_ne hki, List.length_set] at hne ⊢
    exact hr.home k hk hne

/-- Only the addresses of the fields matter. -/
theorem HeapInv.congr (hi : HeapInv c h abs) (hext : h'.extents = h.extents)
    (hb : h'.buckets = h.buckets) (hu : h'.usableSize = h.usableSize) : HeapInv c h' abs :=
  ⟨hext.trans hi.extents, hi.holds, hi.areas, hi.headers,
    ⟨fun i h5 => hb ▸ hi.rings.head i h5, hi.rings.ring, hi.rings.mem, hi.rings.home⟩,
    hu.trans hi.usable⟩

end Update

section Class

variable {c : Cfg} {h h' : EvlHeap} {abs : Abs} {j l : ℕ} {ext ext' : HeapExtent}
  {segs segs' : List Seg} {L S : List ℤ} {y : ℤ}

theorem Bucketed.index (hb : Bucketed l) : l - 4 < 5 ∧ l - 4 + 4 = l := by
  obtain ⟨h₁, h₂⟩ := hb
  omega

/-- A page is in one tile. -/
theorem isBucket_unique {k : ℕ} (h₁ : IsBucket (place Seg.pages 0 segs) l y)
    (h₂ : IsBucket (place Seg.pages 0 segs) k y) : l = k := by
  obtain ⟨p, m, hp, rfl⟩ := h₁
  obtain ⟨q, m', hq, hpq⟩ := h₂
  rcases place_apart hp hq with heq | hlt | hlt
  · cases heq
    rfl
  all_goals
    simp only [Seg.pages] at hlt
    omega

/-- All pages of a class are in the extent in which its ring is. -/
theorem HeapInv.mem_ring (hi : HeapInv c h abs) (hj : abs.pairs[j]? = some (ext, segs))
    (hb : Bucketed l) (hhome : abs.ring (l - 4) ≠ [] → abs.home (l - 4) = j) :
    Pages segs (l - 4) y ↔ y ∈ abs.ring (l - 4) := by
  refine (hi.rings.mem _ hb.index.1 j _ hj y).trans ⟨And.right, fun hy => ⟨?_, hy⟩⟩
  exact (hhome (List.ne_nil_of_mem hy)).symm

theorem HeapInv.elsewhere (hi : HeapInv c h abs) (hb : Bucketed l)
    (hhome : abs.ring (l - 4) ≠ [] → abs.home (l - 4) = j) {k : ℕ} {x : HeapExtent × List Seg}
    (hk : k ≠ j) (hx : abs.pairs[k]? = some x) : ¬ Pages x.2 (l - 4) y := by
  intro hp
  obtain ⟨rfl, hy⟩ := (hi.rings.mem _ hb.index.1 k _ hx y).mp hp
  exact hk (hhome (List.ne_nil_of_mem hy))

theorem HeapInv.onList (hi : HeapInv c h abs) (hj : abs.pairs[j]? = some (ext, segs))
    (hb : Bucketed l) (hhome : abs.ring (l - 4) ≠ [] → abs.home (l - 4) = j) :
    OnList h ext l (abs.ring (l - 4)) := by
  have hold := hi.holds _ (List.mem_of_getElem? hj)
  have hbound := hold.bound
  refine ⟨hb.index.1, hi.rings.head _ hb.index.1, ?_, fun y hy => ?_, hbound.le⟩
  · by_cases hnil : abs.ring (l - 4) = []
    · rw [hnil]
      exact .nil
    · exact hi.rings.ring _ hb.index.1 _ (hhome hnil ▸ hj)
  · obtain ⟨p, m, hp, rfl⟩ := (hi.mem_ring hj hb hhome).mpr hy
    exact hold.hasPage hp

/-- The operations on a list keep the invariant when the new layout goes with the new ring. -/
theorem HeapInv.relinked (hi : HeapInv c h abs) (hj : abs.pairs[j]? = some (ext, segs))
    (hb : Bucketed l) (hhome : abs.ring (l - 4) ≠ [] → abs.home (l - 4) = j)
    (hplace : SamePlace ext ext') (hold : Holds c ext' segs')
    (hext : h'.extents = h.extents.set j ext') (husable : h'.usableSize = h.usableSize)
    (hbuckets : h'.buckets = Function.update h.buckets (l - 4) (L.head?.getD (-1)))
    (hring : IsRing (nextOf ext'.pagemap) (prevOf ext'.pagemap) L)
    (hframe : ∀ y ∉ S, SameLinks ext ext' y)
    (hs : ∀ y ∈ S, y ∈ abs.ring (l - 4) ∨ ∀ k < 5, ¬ Pages segs k y)
    (hp : ∀ y, Pages segs' (l - 4) y ↔ y ∈ L)
    (hp' : ∀ k < 5, k ≠ l - 4 → ∀ y, Pages segs' k y ↔ Pages segs k y) :
    HeapInv c h' ((abs.set j ext' segs').relink (l - 4) j L) := by
  refine hi.update hj hplace hold hext husable (hi.rings.relink hb.index.1 hj hbuckets hring hp hp'
    (fun k hk hkl y hy => hframe y fun hys => ?_) fun k x hk hx y => hi.elsewhere hb hhome hk hx)
  rcases hs y hys with hy' | hnone
  · have := isBucket_unique hy ((hi.mem_ring hj hb hhome).mpr hy')
    omega
  · exact hnone k hk hy

end Class

end Libevl.Heap
