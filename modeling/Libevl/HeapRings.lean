import Libevl.HeapChecks
import Libevl.HeapLists

/-!
# The rings of a heap with one extent

The list of a block size links exactly the pages with live blocks of that size.
The layout carries the argument: a page of the ring holds a live block, and a
live block of a bucketed size lies in a page of the ring.
-/
namespace Libevl.Heap
open Tiling Transition PageRing

variable {c : Cfg} {s : State} {abs : Abs} {ext : HeapExtent} {segs : List Seg} {l : ℕ} {pg : ℤ}
  {b : Block}

/-- The page holds live blocks of `2 ^ l` bytes. -/
def Carries (s : State) (ext : HeapExtent) (l : ℕ) (pg : ℤ) : Prop :=
  ∃ b ∈ s.live, blockSize b.size = (2 ^ l, l) ∧ pageOf ext b.addr = pg

/-- The list of one block size: it is empty without pages of that size, and is else a ring that
starts at the head and visits these pages once each. The bits that stand for no block are set. -/
structure PageList (s : State) (ext : HeapExtent) (i : ℕ) : Prop where
  empty : s.heap.buckets i = -1 ↔ ∀ pg, ¬ Carries s ext (i + 4) pg
  ring : s.heap.buckets i ≠ -1 → ∃ L : List ℤ, L.head? = some (s.heap.buckets i) ∧
    IsRing (nextOf ext.pagemap) (prevOf ext.pagemap) L ∧ ∀ pg, pg ∈ L ↔ Carries s ext (i + 4) pg
  entries : ∀ pg, Carries s ext (i + 4) pg →
    (ext.pagemap pg).type = i + 4 ∧ Padded (i + 4) (ext.pagemap pg).map

/-- The list of every block size is well formed. -/
def WellLinked (s : State) : Prop := ∀ ext ∈ s.heap.extents, ∀ i < 5, PageList s ext i

/-- A block of a bucketed size lies in a page of blocks of that size. -/
theorem bucket_of_block {base a : ℤ} {q : ℕ} {t : Seg} (hv : t.Valid) (hl : Bucketed l)
    (ht : (q, t) ∈ place Seg.pages 0 segs) (ha : (a, 2 ^ l) ∈ t.blocks (base + 512 * (q : ℤ))) :
    IsBucket (place Seg.pages 0 segs) l ((a - base) / 512) := by
  have hlt : 2 ^ l < 512 := Nat.pow_lt_pow_right (by decide) hl.2
  cases t with
  | free n => exact absurd ha List.not_mem_nil
  | multi n =>
    have hn : 0 < n := hv
    have hsize : 2 ^ l = 512 * n := congrArg Prod.snd (List.mem_singleton.mp ha)
    omega
  | bucket l' map =>
    obtain ⟨k, hk, hkey⟩ := List.mem_map.mp ha
    have hsize : 2 ^ l' = 2 ^ l := congrArg Prod.snd hkey
    have haddr : base + 512 * (q : ℤ) + (k * 2 ^ l' : ℕ) = a := congrArg Prod.fst hkey
    obtain rfl : l' = l := Nat.pow_right_injective le_rfl hsize
    have hslot := slot_bounds hl (mem_busy.mp hk).1
    have hpos : 0 < 2 ^ l' := Nat.two_pow_pos l'
    refine ⟨q, map, ht, ?_⟩
    omega

/-- The pages with live blocks of a size are the bucket pages of that size. -/
theorem Inv.carries_iff (hi : Inv c s abs) (hone : abs.pairs = [(ext, segs)]) (hl : Bucketed l) :
    Carries s ext l pg ↔ IsBucket (place Seg.pages 0 segs) l pg := by
  have hmem : (ext, segs) ∈ abs.pairs := by
    rw [hone]
    exact List.mem_singleton_self _
  constructor
  · rintro ⟨b, hb, hclass, rfl⟩
    have hkey : b.key = (b.addr, 2 ^ l) := by rw [Block.key, hclass]
    obtain ⟨q, t, ht, hblock⟩ := (hi.live_iff hone).mp ⟨b, hb, hkey⟩
    exact bucket_of_block ((hi.holds _ hmem).valid t (mem_of_place ht)) hl ht hblock
  · intro hpage
    obtain ⟨b, hb, hclass, hlow, hhigh⟩ := hi.exists_live hmem hl hpage
    have hpos : 0 < 2 ^ l := Nat.two_pow_pos l
    simp only at hlow hhigh
    refine ⟨b, hb, hclass, ?_⟩
    rw [pageOf]
    omega

/-- A bucket page has the entry of its block size. -/
theorem Holds.entry_of_bucket (hold : Holds c ext segs)
    (hpage : IsBucket (place Seg.pages 0 segs) l pg) :
    (ext.pagemap pg).type = l ∧ Padded l (ext.pagemap pg).map := by
  obtain ⟨p, map, hp, rfl⟩ := hpage
  have hv : Seg.Valid (.bucket l map) := hold.valid _ (mem_of_place hp)
  obtain ⟨htype, hmap, -⟩ := hold.described _ hp
  exact ⟨htype, hmap ▸ hv.2.1⟩

theorem Inv.pageList (hi : Inv c s abs) (hone : abs.pairs = [(ext, segs)]) {i : ℕ} (h5 : i < 5) :
    PageList s ext i := by
  have hl : Bucketed (i + 4) := ⟨by omega, by omega⟩
  have hj : abs.pairs[0]? = some (ext, segs) := by rw [hone]; rfl
  have hold : Holds c ext segs := hi.holds _ (List.mem_of_getElem? hj)
  have hhome : abs.ring i ≠ [] → abs.home i = 0 := fun hne => by
    have hlt := hi.rings.home i h5 hne
    rw [hone, List.length_singleton] at hlt
    omega
  have hring (pg : ℤ) : pg ∈ abs.ring i ↔ Carries s ext (i + 4) pg := by
    rw [hi.carries_iff hone hl]
    exact (hi.mem_ring hj hl hhome).symm
  have hon : OnList s.heap ext (i + 4) (abs.ring i) := hi.onList hj hl hhome
  have hhead := hi.rings.head i h5
  constructor
  · constructor
    · intro hnone pg hpg
      have hpage := (hring pg).mpr hpg
      cases hlist : abs.ring i with
      | nil => simp [hlist] at hpage
      | cons a L =>
        have ha := (hon.pages a (by simp [hlist])).1
        rw [hlist, List.head?_cons, Option.getD_some] at hhead
        omega
    · intro hno
      have hnil : abs.ring i = [] :=
        List.eq_nil_iff_forall_not_mem.mpr fun pg hpg => hno pg ((hring pg).mp hpg)
      rw [hhead, hnil]
      rfl
  · intro hsome
    refine ⟨abs.ring i, ?_, hon.ring, hring⟩
    cases hlist : abs.ring i with
    | nil =>
      rw [hlist] at hhead
      exact absurd hhead hsome
    | cons a L =>
      rw [hhead, hlist]
      rfl
  · intro pg hpg
    exact hold.entry_of_bucket ((hi.carries_iff hone hl).mp hpg)

/-- The page lists stay well formed in every run over one extent whose requests the heap handles. -/
theorem wellLinked_of_handled
    (h : Reach (fun s op s' => Single c s op ∧ Step c s op s') (Initial c) s) : WellLinked s := by
  obtain ⟨abs, hi, hlen⟩ := reach_single h
  obtain ⟨⟨ext, segs⟩, hone⟩ := List.length_eq_one_iff.mp hlen
  intro e he i h5
  rw [hi.extents, hone, List.map_singleton] at he
  obtain rfl := List.mem_singleton.mp he
  exact hi.pageList hone h5

/-- Two pages of two blocks each; the full one goes behind the other. -/
theorem wellLinked_of_handled_pair : ∃ s, (newHeap ⟨true, true⟩ 2 >>= fun s =>
      runs (exec ⟨true, true⟩) s [.alloc 256, .alloc 256, .alloc 256]) = some s ∧
    s.heap.buckets 4 = 0 ∧ WellLinked s := by
  have hrun : ((newHeap ⟨true, true⟩ 2 >>= fun s =>
      runs (exec ⟨true, true⟩) s [.alloc 256, .alloc 256, .alloc 256]).map fun s =>
        s.heap.buckets 4) = some 0 := by decide
  obtain ⟨s, hs, hhead⟩ := Option.map_eq_some_iff.mp hrun
  have hsmall : ∀ op ∈ [Op.alloc 256, .alloc 256, .alloc 256], op.small = true := by decide
  have hreach : Reach (fun s op s' => Single ⟨true, true⟩ s op ∧ Step ⟨true, true⟩ s op s')
      (Initial ⟨true, true⟩) s :=
    reach_replay hs (fun _ hs₀ => newHeap_initial hs₀ (by decide))
      fun op hop _ _ h => ⟨single_of_small rfl (hsmall op hop), h⟩
  exact ⟨s, hs, hhead, wellLinked_of_handled hreach⟩

/-- The page that a request of 2^63 + 2^41 bytes gets is the one of the live block, and its size
takes the place of the map. -/
theorem not_wellLinked_huge : ¬ ∀ (c : Cfg) (s : State),
    Reach (fun s op s' => (∀ raw mem size, op ≠ .extend raw mem size) ∧ Step c s op s')
      (Initial c) s → WellLinked s := by
  intro h
  have hrun : ((newHeap ⟨true, false⟩ 2 >>= fun s => runs (exec ⟨true, false⟩) s
      [.alloc 200, .alloc (2 ^ 63 + 2 ^ 41)]).map fun s => (s.live.getLast?,
        s.heap.extents.map fun ext => (ext.membase, (ext.pagemap 1).map))) =
      some (some ⟨4800, 200⟩, [(4288, 0#32)]) := by decide
  obtain ⟨s, hs, hval⟩ := Option.map_eq_some_iff.mp hrun
  obtain ⟨hlast, hext⟩ := Prod.mk.inj hval
  have hreach : Reach (fun s op s' => (∀ raw mem size, op ≠ .extend raw mem size) ∧
      Step ⟨true, false⟩ s op s') (Initial ⟨true, false⟩) s := by
    apply reach_replay hs fun _ hs₀ => newHeap_initial hs₀ (by decide)
    intro op hop s s' h
    refine ⟨fun raw mem size heq => ?_, h⟩
    subst heq
    simp at hop
  obtain ⟨ext, hexts, hentry⟩ := List.map_eq_singleton_iff.mp hext
  obtain ⟨hbase, hmap⟩ := Prod.mk.inj hentry
  have hcarries : Carries s ext 8 1 := by
    refine ⟨⟨4800, 200⟩, List.mem_of_getLast? hlast, by decide, ?_⟩
    rw [pageOf, hbase]
    rfl
  have hpadded := ((h _ _ hreach ext (by simp [hexts]) 4 (by decide)).entries 1 hcarries).2
  rw [hmap] at hpadded
  exact absurd (hpadded 2 (by decide) (by decide)) (by decide)

end Libevl.Heap
