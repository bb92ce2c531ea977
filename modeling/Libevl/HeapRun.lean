import Libevl.HeapInit

/-!
# Runs of the heap

Blocks are handed out and freed, extents are added, and the users write to their
blocks. A step in which the code goes wrong leads nowhere. The conditions under
which an allocation keeps the invariant are stated on the heap before it.
-/
namespace Libevl.Heap
open AvlTree Tiling Transition TreePath

/-- A request to the heap, or a write of the users. -/
inductive Op
  | alloc (size : ℕ)
  | free (b : Block)
  | extend (raw : HeapExtent) (mem : ℤ) (size : ℕ)
  | write

/-- The descriptor of the range at `a` takes `sizeof(struct evl_mem_range)` = 72 bytes. -/
def Untouched (live : List Block) (a : ℤ) : Prop := ∀ b ∈ live, Apart (a, 72) b.key

/-- The nodes whose memory is not written to are the same. -/
structure SameTree (live : List Block) (t t' : Avl ℤ) : Prop where
  ends : SameEnds t t'
  anchor : t'.cell .anchor = t.cell .anchor
  cell : ∀ a, Untouched live a → t'.cell (.node a) = t.cell (.node a)

/-- The users write to their blocks, and to no other memory of the extent. -/
structure Scribbled (live : List Block) (ext ext' : HeapExtent) : Prop where
  place : SamePlace ext ext'
  pagemap : ext'.pagemap = ext.pagemap
  addr : SameTree live ext.addrTree ext'.addrTree
  size : SameTree live ext.sizeTree ext'.sizeTree
  sizes : ∀ a, Untouched live a → ext'.size a = ext.size a

/-- The blocks that are live after an allocation of `size` bytes. -/
def handOut (r : Option ℤ) (size : ℕ) (live : List Block) : List Block :=
  (r.map fun a => ⟨a, size⟩).toList ++ live

/-- The blocks that are live after a free which returned `r`. -/
def giveBack (r : ℤ) (b : Block) (live : List Block) : List Block :=
  if r = 0 then live.erase b else live

/-- One step. The uses recorded in a state are those of the step that led to it. -/
inductive Step (c : Cfg) : State → Op → State → Prop
  | alloc {s : State} {size : ℕ} {h' : EvlHeap} {r : Option ℤ} : size < 2 ^ 64 →
      evlAllocBlockUnlocked c (s.heap.withUses []) size = .ok (h', r) →
      Step c s (.alloc size) ⟨h', handOut r size s.live⟩
  | free {s : State} {b : Block} {h' : EvlHeap} {r : ℤ} : b ∈ s.live →
      evlFreeBlockUnlocked c (s.heap.withUses []) b.addr = .ok (h', r) →
      Step c s (.free b) ⟨h', giveBack r b s.live⟩
  | extend {s : State} {raw : HeapExtent} {mem : ℤ} {size : ℕ} {r : Option EvlHeap} :
      Area mem size → (∀ ext ∈ s.heap.extents, ext.memlim ≤ mem ∨ mem + size ≤ ext.mem) →
      evlExtendHeapUnlocked c (s.heap.withUses []) raw mem size = .ok r →
      Step c s (.extend raw mem size) ⟨r.getD (s.heap.withUses []), s.live⟩
  | write {s : State} {exts : List HeapExtent} :
      List.Forall₂ (Scribbled s.live) s.heap.extents exts →
      Step c s .write ⟨(s.heap.withUses []).withExtents exts, s.live⟩

/-- A heap that was set up over one area. -/
def Initial (c : Cfg) (s : State) : Prop :=
  ∃ raw mem size, Area mem size ∧ evlInitHeapUnlocked c raw mem size = .ok (some s.heap) ∧
    s.live = []

/-- In the first extent, the page at the head of the list has no free block. -/
def HeadFull (h : EvlHeap) (l : ℕ) : Prop :=
  ∀ ext rest, h.extents = ext :: rest →
    h.buckets (l - 4) = -1 ∨ (ext.pagemap (h.buckets (l - 4))).map = BitVec.allOnes 32

/-- The request compares the right way round with the ranges, and fresh pages that it needs are
found below 2^31 bytes. -/
structure Handled (c : Cfg) (h : EvlHeap) (size : ℕ) : Prop where
  fits : RequestFits h size
  shift : 512 ≤ (blockSize size).1 ∨ HeadFull h (blockSize size).2 →
    Shiftable c h (alignTo (blockSize size).1 512)

/-- The live blocks of the size that is requested are in the first extent, which gives a fresh
page for them if any extent does. -/
def InFirst (s : State) (size : ℕ) : Prop :=
  ∀ ext rest, s.heap.extents = ext :: rest → (blockSize size).1 < 512 →
    ∀ b ∈ s.live, blockSize b.size = blockSize size →
      (ext.membase ≤ b.addr ∧ b.addr < ext.memlim) ∧
        (¬ HeadFull s.heap (blockSize size).2 ∨ ext.sizeTree.top ≠ none ∨
          ∀ e ∈ rest, e.sizeTree.top = none)

section Reading

variable {c : Cfg} {s : State} {h : EvlHeap} {abs : Abs} {ext : HeapExtent} {segs : List Seg}
  {l : ℕ} {y : ℤ} {b : Block}

/-- The pagemap tells whether a page has room. -/
theorem Holds.room_iff (hold : Holds c ext segs) (hy : IsBucket (place Seg.pages 0 segs) l y) :
    Room segs l y ↔ (ext.pagemap y).map ≠ BitVec.allOnes 32 := by
  constructor
  · rintro ⟨p, map, hp, rfl, hmap⟩
    rw [(hold.described _ hp).2.1]
    exact hmap
  · intro hmap
    obtain ⟨p, map, hp, rfl⟩ := hy
    rw [(hold.described _ hp).2.1] at hmap
    exact ⟨p, map, hp, rfl, hmap⟩

/-- The size tree tells whether an extent has a free page. -/
theorem Holds.top_none (hold : Holds c ext segs) : ext.sizeTree.top = none ↔ NoRoom 1 segs := by
  obtain ⟨ss, ⟨t, hrep, rfl⟩, hperm, -⟩ := hold.ranges.size
  rw [hrep.top, root_eq_none, ← toList_eq_nil]
  constructor
  · intro hnil n hn
    obtain ⟨r, hr, -⟩ := mem_frees ext.membase 0 hn
    rw [hnil] at hperm
    have := hperm.symm.mem_iff.mp (List.mem_map_of_mem hr)
    simp at this
  · intro hno
    cases hlist : toList t with
    | nil => rfl
    | cons a as =>
      have ha : a ∈ (frees ext.membase 0 segs).map Prod.fst := hperm.mem_iff.mp (by simp [hlist])
      obtain ⟨r, hr, rfl⟩ := List.mem_map.mp ha
      obtain ⟨pre, post, hs⟩ := List.append_of_mem hr
      obtain ⟨A, n, B, rfl, -⟩ := exists_free hs
      have hlt := hno n (by simp)
      have hpos : 0 < n := hold.valid (.free n) (by simp)
      omega

theorem Inv.size_le (hi : Inv c s abs) (hb : b ∈ s.live) : 0 < b.size ∧ b.size ≤ b.key.2 :=
  ⟨(hi.sizes b hb).1, (blockSize_cases (hi.sizes b hb).2).1⟩

/-- The class of a live block is known from its size. -/
theorem Inv.class_eq (hi : Inv c s abs) (hb : b ∈ s.live) (hl : Bucketed l)
    (hk : b.key.2 = 2 ^ l) : blockSize b.size = (2 ^ l, l) := by
  have hlt : 2 ^ l < 512 := Nat.pow_lt_pow_right (by decide) hl.2
  rcases (blockSize_cases (hi.sizes b hb).2).2 with ⟨l', -, hbs⟩ | ⟨k, l', hpos, -, hbs⟩
  · rw [Block.key, hbs] at hk
    obtain rfl : l' = l := Nat.pow_right_injective le_rfl hk
    exact hbs
  · rw [Block.key, hbs] at hk
    simp only at hk
    omega

/-- A page of a ring holds a live block of its size. -/
theorem Inv.exists_live (hi : Inv c s abs) {x : HeapExtent × List Seg} (hx : x ∈ abs.pairs)
    (hl : Bucketed l) (hy : IsBucket (place Seg.pages 0 x.2) l y) :
    ∃ b ∈ s.live, blockSize b.size = (2 ^ l, l) ∧ x.1.membase + 512 * y ≤ b.addr ∧
      b.addr + (2 ^ l : ℕ) ≤ x.1.membase + 512 * (y + 1) := by
  obtain ⟨p, map, hp, rfl⟩ := hy
  have hv : Seg.Valid (.bucket l map) := (hi.holds x hx).valid _ (mem_of_place hp)
  obtain ⟨k, hk⟩ := List.exists_mem_of_ne_nil _ hv.2.2
  have hblock : (x.1.membase + 512 * (p : ℤ) + (k * 2 ^ l : ℕ), 2 ^ l) ∈ abs.blocks :=
    List.mem_flatMap.mpr ⟨x, hx, List.mem_flatMap.mpr ⟨_, hp, List.mem_map.mpr ⟨k, hk, rfl⟩⟩⟩
  obtain ⟨b, hb, hkey⟩ := List.mem_map.mp (hi.live.symm.mem_iff.mp hblock)
  have haddr : b.addr = x.1.membase + 512 * (p : ℤ) + (k * 2 ^ l : ℕ) := congrArg Prod.fst hkey
  have hslot := slot_bounds hl (mem_busy.mp hk).1
  refine ⟨b, hb, hi.class_eq hb hl (congrArg Prod.snd hkey), ?_, ?_⟩ <;> rw [haddr] <;> omega

/-- The head of a list that lies in the first extent. -/
theorem HeapInv.headFull_iff (hi : HeapInv c h abs) (hl : Bucketed l)
    (hzero : abs.ring (l - 4) ≠ [] → abs.home (l - 4) = 0) : HeadFull h l ↔ ¬ abs.HeadRoom l := by
  have hhead := hi.rings.head _ hl.index.1
  cases hring : abs.ring (l - 4) with
  | nil =>
    rw [hring] at hhead
    refine iff_of_true (fun _ _ _ => .inl hhead) ?_
    rintro ⟨y, R, x, hy, -⟩
    simp [hring] at hy
  | cons y R =>
    have hne : abs.ring (l - 4) ≠ [] := by simp [hring]
    have hhome := hzero hne
    have hlen := hi.rings.home _ hl.index.1 hne
    rw [hhome] at hlen
    obtain ⟨⟨ext, segs⟩, pairs, hpairs⟩ := List.exists_cons_of_length_pos hlen
    have hj : abs.pairs[0]? = some (ext, segs) := by simp [hpairs]
    have hold : Holds c ext segs := hi.holds _ (List.mem_of_getElem? hj)
    have hpage := (hi.mem_ring hj hl fun _ => hhome).mpr (by simp [hring] : y ∈ abs.ring (l - 4))
    rw [Pages, hl.index.2] at hpage
    rw [hring, List.head?_cons, Option.getD_some] at hhead
    have hexts : h.extents = ext :: pairs.map Prod.fst := by rw [hi.extents, hpairs, List.map_cons]
    have hroom : abs.HeadRoom l ↔ Room segs l y := by
      constructor
      · rintro ⟨y', R', x, hy', hx, hroom⟩
        rw [hhome, hj] at hx
        obtain rfl := Option.some.inj hx
        obtain ⟨rfl, -⟩ := List.cons.inj (hring.symm.trans hy')
        exact hroom
      · exact fun hroom => ⟨y, R, _, hring, hhome ▸ hj, hroom⟩
    have hneg : y ≠ -1 := by
      obtain ⟨p, map, -, rfl⟩ := hpage
      omega
    rw [hroom, hold.room_iff hpage, not_not]
    constructor
    · intro hfull
      have := hfull ext _ hexts
      rw [hhead] at this
      exact this.resolve_left hneg
    · intro hfull ext' rest hexts'
      obtain ⟨rfl, -⟩ := List.cons.inj (hexts.symm.trans hexts')
      exact .inr (hhead ▸ hfull)

/-- The blocks of a size that are live in the first extent put its ring there. -/
theorem Inv.first_home {size : ℕ} (hi : Inv c s abs) (hf : InFirst s size) (hl : Bucketed l)
    (hbs : blockSize size = (2 ^ l, l)) (hne : abs.ring (l - 4) ≠ []) :
    abs.home (l - 4) = 0 ∧
      (abs.HeadRoom l ∨ ∀ j ext A n B, Found c abs 1 j ext A n B → j = 0) := by
  have hlen := hi.rings.home _ hl.index.1 hne
  have hlt : 2 ^ l < 512 := Nat.pow_lt_pow_right (by decide) hl.2
  obtain ⟨⟨ext₀, segs₀⟩, pairs, hpairs⟩ := List.exists_cons_of_length_pos (Nat.zero_lt_of_lt hlen)
  have hj₀ : abs.pairs[0]? = some (ext₀, segs₀) := by simp [hpairs]
  have hexts : s.heap.extents = ext₀ :: pairs.map Prod.fst := by
    rw [hi.extents, hpairs, List.map_cons]
  obtain ⟨y, hy⟩ := List.exists_mem_of_ne_nil _ hne
  obtain ⟨⟨ext, segs⟩, hj⟩ : ∃ x, abs.pairs[abs.home (l - 4)]? = some x :=
    ⟨_, List.getElem?_eq_getElem hlen⟩
  have hpage := (hi.mem_ring hj hl fun _ => rfl).mpr hy
  rw [Pages, hl.index.2] at hpage
  obtain ⟨b, hb, hclass, hlow, hhigh⟩ := hi.exists_live (List.mem_of_getElem? hj) hl hpage
  simp only at hlow hhigh
  obtain ⟨hin, hor⟩ := hf ext₀ _ hexts (by rw [hbs]; exact hlt) b hb (hclass.trans hbs.symm)
  have hzero : abs.home (l - 4) = 0 := by
    have hold : Holds c ext segs := hi.holds _ (List.mem_of_getElem? hj)
    have hlimit := hold.limit
    obtain ⟨p, map, hp, rfl⟩ := hpage
    have hhas := (hold.hasPage hp).2
    have hpos : 0 < 2 ^ l := Nat.two_pow_pos l
    have h₁ := hi.findExtent hj₀ hin
    have h₂ := hi.findExtent (a := b.addr) hj ⟨by omega, by omega⟩
    exact congrArg Prod.fst (Option.some.inj (h₂.symm.trans h₁))
  refine ⟨hzero, ?_⟩
  rw [hbs] at hor
  rcases hor with hroom | htop | hrest
  · exact .inl (not_not.mp (mt (hi.headFull_iff hl fun _ => hzero).mpr hroom))
  · refine .inr fun j ext' A n B hfound => ?_
    have hroom := mt (hi.holds _ (List.mem_of_getElem? hj₀)).top_none.mpr htop
    by_contra hj
    exact hroom (hfound.first 0 (Nat.pos_of_ne_zero hj) _ hj₀)
  · refine .inr fun j ext' A n B hfound => ?_
    by_contra hj
    have hmem := List.mem_of_getElem? hfound.place
    have hmem' : (ext', A ++ Seg.free n :: B) ∈ pairs := by
      have hplace := hfound.place
      obtain ⟨i, rfl⟩ := Nat.exists_eq_succ_of_ne_zero hj
      rw [hpairs, List.getElem?_cons_succ] at hplace
      exact List.mem_of_getElem? hplace
    have htop := hrest ext' (List.mem_map_of_mem hmem')
    have := (hi.holds _ hmem).top_none.mp htop n (by simp)
    have := hfound.fits
    omega

end Reading

section Steps

variable {c : Cfg} {s : State} {abs : Abs} {size : ℕ} {b : Block}

/-- What an allocation may rely on, in terms of the layouts. -/
structure Ready (c : Cfg) (h : EvlHeap) (abs : Abs) (size : ℕ) : Prop where
  fits : RequestFits h size
  shift : (∀ l, Bucketed l → blockSize size = (2 ^ l, l) → ¬ abs.HeadRoom l) →
    Shiftable c h (alignTo (blockSize size).1 512)
  home : ∀ l, Bucketed l → blockSize size = (2 ^ l, l) → abs.ring (l - 4) ≠ [] →
    abs.home (l - 4) = 0 ∧ (abs.HeadRoom l ∨ ∀ j ext A n B, Found c abs 1 j ext A n B → j = 0)

theorem Inv.ready (hi : Inv c s abs) (hh : Handled c s.heap size) (hf : InFirst s size) :
    Ready c s.heap abs size := by
  refine ⟨hh.fits, fun hno => hh.shift ?_, fun l hl hbs hne => hi.first_home hf hl hbs hne⟩
  rcases (blockSize_cases hh.fits.1).2 with ⟨l, hl, hbs⟩ | ⟨k, l, hk, -, hbs⟩
  · right
    rw [hbs]
    exact (hi.headFull_iff hl fun hne => (hi.first_home hf hl hbs hne).1).mpr (hno l hl hbs)
  · left
    rw [hbs]
    simp only
    omega

/-- In a heap with one extent, every list is in the first one. -/
theorem Inv.inFirst (hi : Inv c s abs) (hone : abs.pairs.length = 1) : InFirst s size := by
  intro ext rest hexts hsmall b hb hclass
  obtain ⟨x, hx⟩ := List.length_eq_one_iff.mp hone
  have hrest : ext :: rest = [x.1] := by rw [← hexts, hi.extents, hx, List.map_singleton]
  obtain ⟨rfl, rfl⟩ := List.cons.inj hrest
  refine ⟨?_, .inr (.inr (by simp))⟩
  have hkey : b.key ∈ abs.blocks := hi.live.mem_iff.mp (List.mem_map_of_mem hb)
  obtain ⟨y, hy, hblock⟩ := List.mem_flatMap.mp hkey
  rw [hx] at hy
  obtain rfl := List.mem_singleton.mp hy
  have hold := hi.holds y (by simp [hx])
  have hbounds := blocksOf_bounds hold.valid hblock
  have hpos : 0 < b.key.2 := (hi.size_le hb).1.trans_le (hi.size_le hb).2
  have hlimit := hold.limit
  have htotal := hold.total
  have haddr : b.key.1 = b.addr := rfl
  omega

theorem handOut_key (r : Option ℤ) (size : ℕ) (live : List Block) :
    (handOut r size live).map Block.key =
      (r.map fun a => (a, (blockSize size).1)).toList ++ live.map Block.key := by
  cases r <;> rfl

/-- An allocation that the heap is ready for. -/
theorem Inv.alloc (hi : Inv c s abs) (hr : Ready c s.heap abs size) :
    ∃ h' r abs', evlAllocBlockUnlocked c (s.heap.withUses []) size = .ok (h', r) ∧
      Allocated c abs size r abs' ∧ Inv c ⟨h', handOut r size s.live⟩ abs' ∧
      ∀ u ∈ h'.uses, abs.Names u := by
  have hi₀ : HeapInv c (s.heap.withUses []) abs := hi.congr rfl rfl rfl
  obtain ⟨h', r, abs', hrun, hout, hi', hh⟩ := alloc_spec hi₀ hr.fits hr.shift hr.home
  refine ⟨h', r, abs', hrun, hout, ⟨hi', ?_, ?_, ?_⟩, fun u hu => ?_⟩
  · rw [handOut_key]
    exact (hi.live.append_left _).trans hh.blocks.symm
  · have hused : (s.heap.withUses []).usedSize = _ := hi.used
    cases r with
    | none => exact hh.used.trans hused
    | some a =>
      refine hh.used.trans ?_
      rw [Option.elim_some, hused, sizeAdd]
      change _ = ((blockSize size).1 + (s.live.map fun b => b.key.2).sum) % 2 ^ 64
      omega
  · intro b hb
    cases r with
    | none => exact hi.sizes b hb
    | some a =>
      rcases List.mem_cons.mp hb with rfl | hb
      · refine ⟨Nat.pos_of_ne_zero ?_, hr.fits.1⟩
        cases hout <;> assumption
      · exact hi.sizes b hb
  · rcases hh.uses u hu with hu | hu
    · simp [EvlHeap.withUses] at hu
    · exact hu

/-- A live block is always taken back. -/
theorem Inv.free (hi : Inv c s abs) (hb : b ∈ s.live) :
    ∃ h' abs', evlFreeBlockUnlocked c (s.heap.withUses []) b.addr = .ok (h', 0) ∧
      Freed abs b.key abs' ∧ Inv c ⟨h', s.live.erase b⟩ abs' ∧ ∀ u ∈ h'.uses, abs.Names u := by
  have hi₀ : HeapInv c (s.heap.withUses []) abs := hi.congr rfl rfl rfl
  have hmem : b.key ∈ abs.blocks := hi.live.mem_iff.mp (List.mem_map_of_mem hb)
  obtain ⟨h', abs', hrun, hout, hi', hret⟩ := free_spec hi₀ hmem
  have hperm := List.perm_cons_erase hb
  refine ⟨h', abs', hrun, hout, ⟨hi', ?_, ?_, fun x hx => hi.sizes x (List.mem_of_mem_erase hx)⟩,
    fun u hu => ?_⟩
  · have hlive := (hperm.map Block.key).symm.trans (hi.live.trans hret.blocks)
    exact List.perm_cons b.key |>.mp hlive
  · have hsum : (s.live.map fun b => b.key.2).sum =
        b.key.2 + ((s.live.erase b).map fun b => b.key.2).sum := by
      rw [(hperm.map fun b => b.key.2).sum_eq, List.map_cons, List.sum_cons]
    have hused : (s.heap.withUses []).usedSize = _ := hi.used
    refine hret.used.trans ?_
    rw [hused, hsum, sizeSub]
    have hle : b.key.2 ≤ 2 ^ 64 := by
      rcases (blockSize_cases (hi.sizes b hb).2).2 with ⟨l, hl, hbs⟩ | ⟨k, l, -, hk, hbs⟩
      · rw [Block.key, hbs]
        exact Nat.pow_le_pow_right (by decide) (by have := hl.2; omega)
      · rw [Block.key, hbs]
        simp only
        omega
    simp only
    omega
  · rcases hret.uses u hu with hu | hu
    · simp [EvlHeap.withUses] at hu
    · exact hu

end Steps

section Write

variable {c : Cfg} {h h' : EvlHeap} {s : State} {abs : Abs}
  {pairs pairs' : List (HeapExtent × List Seg)}

/-- The same layout in the same place, in memory with other contents. -/
structure Rewrites (c : Cfg) (x x' : HeapExtent × List Seg) : Prop where
  place : SamePlace x.1 x'.1
  pagemap : x'.1.pagemap = x.1.pagemap
  layout : x'.2 = x.2
  holds : Holds c x'.1 x'.2

theorem map_eq_of_forall₂ {α β γ : Type*} {R : α → β → Prop} {l : List α} {l' : List β} {f : α → γ}
    {g : β → γ} (hl : List.Forall₂ R l l') (hfg : ∀ x y, R x y → f x = g y) : l.map f = l'.map g := by
  induction hl with
  | nil => rfl
  | cons hxy _ ih => rw [List.map_cons, List.map_cons, hfg _ _ hxy, ih]

theorem getElem?_of_forall₂ {α β : Type*} {R : α → β → Prop} {l : List α} {l' : List β}
    (hl : List.Forall₂ R l l') {k : ℕ} {y : β} (hk : l'[k]? = some y) : ∃ x, l[k]? = some x ∧ R x y := by
  induction hl generalizing k with
  | nil => simp at hk
  | cons hxy _ ih =>
    cases k with
    | zero =>
      obtain rfl := Option.some.inj hk
      exact ⟨_, rfl, hxy⟩
    | succ k => exact ih hk

/-- All extents may be rewritten. -/
theorem HeapInv.rewrite (hi : HeapInv c h abs) (hw : List.Forall₂ (Rewrites c) abs.pairs pairs')
    (hext : h'.extents = pairs'.map Prod.fst) (hb : h'.buckets = h.buckets)
    (hu : h'.usableSize = h.usableSize) : HeapInv c h' { abs with pairs := pairs' } := by
  refine ⟨hext, fun x hx => ?_, ?_, fun x hx => ?_, ⟨fun i hi5 => ?_, fun i hi5 x hx => ?_,
    fun i hi5 k x hx y => ?_, fun i hi5 hne => ?_⟩, ?_⟩
  · obtain ⟨k, hk⟩ := List.getElem?_of_mem hx
    obtain ⟨x₀, -, hr⟩ := getElem?_of_forall₂ hw hk
    exact hr.holds
  · refine disjoint_congr (map_eq_of_forall₂ hw fun x y hr => ?_) hi.areas
    rw [hr.place.mem, hr.place.memlim]
  · obtain ⟨k, hk⟩ := List.getElem?_of_mem hx
    obtain ⟨x₀, hx₀, hr⟩ := getElem?_of_forall₂ hw hk
    rw [hr.place.mem, hr.place.membase, hr.place.memlim]
    exact hi.headers x₀ (List.mem_of_getElem? hx₀)
  · exact hb ▸ hi.rings.head i hi5
  · obtain ⟨x₀, hx₀, hr⟩ := getElem?_of_forall₂ hw hx
    rw [hr.pagemap]
    exact hi.rings.ring i hi5 x₀ hx₀
  · obtain ⟨x₀, hx₀, hr⟩ := getElem?_of_forall₂ hw hx
    rw [hr.layout]
    exact hi.rings.mem i hi5 k x₀ hx₀ y
  · exact (hi.rings.home i hi5 hne).trans_eq hw.length_eq
  · rw [hu, hi.usable]
    congr 2
    refine map_eq_of_forall₂ hw fun x y hr => ?_
    rw [hr.layout]

theorem blocks_rewrite (hw : List.Forall₂ (Rewrites c) abs.pairs pairs') :
    ({ abs with pairs := pairs' } : Abs).blocks = abs.blocks := by
  rw [Abs.blocks, Abs.blocks, List.flatMap_def, List.flatMap_def]
  congr 1
  refine (map_eq_of_forall₂ hw fun x y hr => ?_).symm
  rw [hr.place.membase, hr.layout]

/-- Free ranges and blocks of one layout do not overlap. -/
theorem frees_blocks_apart {base : ℤ} {p : ℕ} {segs : List Seg} (hv : ∀ t ∈ segs, t.Valid)
    {r q : ℤ × ℕ} (hr : r ∈ frees base p segs) (hq : q ∈ blocksOf base p segs) : Apart r q := by
  obtain ⟨⟨p₁, s₁⟩, h₁, hs₁⟩ := List.mem_filterMap.mp hr
  obtain ⟨⟨p₂, s₂⟩, h₂, hs₂⟩ := List.mem_flatMap.mp hq
  obtain ⟨hb₁, hb₂, -⟩ := (hv s₂ (mem_of_place h₂)).blocks_bounds hs₂
  cases s₁ with
  | free n =>
    obtain rfl := Option.some.inj hs₁
    rcases place_apart h₁ h₂ with heq | hlt | hlt
    · cases heq
      simp [Seg.blocks] at hs₂
    · simp only [Seg.pages] at hlt
      refine .inl ?_
      simp only at hb₁ ⊢
      omega
    · refine .inr ?_
      simp only at hb₂ hlt ⊢
      omega
  | multi n => simp [rangeAt] at hs₁
  | bucket l map => simp [rangeAt] at hs₁

/-- Two extents of a heap are the same, or lie in different areas. -/
theorem HeapInv.areas_of (hi : HeapInv c h abs) : ∀ x ∈ abs.pairs, ∀ y ∈ abs.pairs,
    x = y ∨ x.1.memlim ≤ y.1.mem ∨ y.1.memlim ≤ x.1.mem := by
  have hsymm : Std.Symm fun x y : HeapExtent × List Seg =>
      x.1.memlim ≤ y.1.mem ∨ y.1.memlim ≤ x.1.mem := ⟨fun _ _ => Or.symm⟩
  intro x hx y hy
  by_cases hxy : x = y
  · exact .inl hxy
  · exact .inr (List.Pairwise.forall hi.areas hx hy hxy)

theorem Holds.inside {ext : HeapExtent} {segs : List Seg} (hold : Holds c ext segs) {q : ℤ × ℕ}
    (hq : q ∈ blocksOf ext.membase 0 segs ∨ q ∈ frees ext.membase 0 segs) :
    ext.membase ≤ q.1 ∧ q.1 + q.2 ≤ ext.memlim := by
  have hlimit := hold.limit
  have htotal := hold.total
  rcases hq with hq | hq
  · have := blocksOf_bounds hold.valid hq
    omega
  · have := frees_bounds hq
    omega

/-- No live block overlaps a free range. -/
theorem Inv.free_apart (hi : Inv c s abs) {x : HeapExtent × List Seg} (hx : x ∈ abs.pairs)
    {r : ℤ × ℕ} (hr : r ∈ frees x.1.membase 0 x.2) {b : Block} (hb : b ∈ s.live) :
    Apart r b.key := by
  have hkey : b.key ∈ abs.blocks := hi.live.mem_iff.mp (List.mem_map_of_mem hb)
  obtain ⟨y, hy, hblock⟩ := List.mem_flatMap.mp hkey
  rcases hi.areas_of x hx y hy with rfl | hlt
  · exact frees_blocks_apart (hi.holds x hx).valid hr hblock
  · have h₁ := (hi.holds x hx).inside (.inr hr)
    have h₂ := (hi.holds y hy).inside (.inl hblock)
    have h₃ := (hi.headers x hx).2.1
    have h₄ := (hi.headers y hy).2.1
    rcases hlt with hlt | hlt
    · exact .inl (by omega)
    · exact .inr (by omega)

/-- No live block overlaps the descriptor of a free range. -/
theorem Inv.untouched (hi : Inv c s abs) {x : HeapExtent × List Seg} (hx : x ∈ abs.pairs)
    {r : ℤ × ℕ} (hr : r ∈ frees x.1.membase 0 x.2) : Untouched s.live r.1 := by
  intro b hb
  have hbig : 512 ≤ r.2 := by
    obtain ⟨pre, post, hs⟩ := List.append_of_mem hr
    obtain ⟨A, n, B, hsegs, -, rfl, -⟩ := exists_free hs
    have hn : 0 < n := (hi.holds x hx).valid (.free n) (by simp [hsegs])
    simp only
    omega
  rcases hi.free_apart hx hr hb with h | h
  · exact .inl (by simp only; omega)
  · exact .inr h

/-- The users' writes change nothing that the heap relies on. -/
theorem Scribbled.rewrites (hi : Inv c s abs) {x : HeapExtent × List Seg} (hx : x ∈ abs.pairs)
    {ext' : HeapExtent} (hw : Scribbled s.live x.1 ext') : Rewrites c x (ext', x.2) := by
  have hold := hi.holds x hx
  have hun : ∀ a ∈ (frees x.1.membase 0 x.2).map Prod.fst, Untouched s.live a := by
    intro a ha
    obtain ⟨r, hr, rfl⟩ := List.mem_map.mp ha
    exact hi.untouched hx hr
  refine ⟨hw.place, hw.pagemap, rfl, ?_, ?_, hw.place.nrpages ▸ hold.bound, hold.valid, ?_, ?_⟩
  · simp only [hw.place.memlim, hw.place.membase, hw.place.nrpages]
    exact hold.limit
  · simp only [hw.place.nrpages]
    exact hold.total
  · simp only [hw.place.membase]
    obtain ⟨ss, hlist, hperm, hsorted⟩ := hold.ranges.size
    have hun' : ∀ a ∈ ss, Untouched s.live a := fun a ha => hun a (hperm.mem_iff.mp ha)
    refine ⟨hold.ranges.addr.congr (fun a ha => hw.addr.cell a (hun a ha)) hw.addr.anchor
      hw.addr.ends, ⟨ss, hlist.congr (fun a ha => hw.size.cell a (hun' a ha)) hw.size.anchor
      hw.size.ends, hperm, ?_⟩, fun r hr => ?_, hold.ranges.apart, hold.ranges.pos⟩
    · refine hsorted.imp_of_mem fun ha hb hle => ?_
      rw [hw.sizes _ (hun' _ ha), hw.sizes _ (hun' _ hb)]
      exact hle
    · rw [hw.sizes _ (hun _ (List.mem_map_of_mem hr))]
      exact hold.ranges.sizes r hr
  · simp only [hw.pagemap]
    exact hold.described

theorem exists_pairs {R : HeapExtent × List Seg → HeapExtent → Prop} {exts : List HeapExtent}
    (hw : List.Forall₂ R pairs exts)
    (h : ∀ x ∈ pairs, ∀ e, R x e → Rewrites c x (e, x.2)) :
    ∃ pairs', pairs'.map Prod.fst = exts ∧ List.Forall₂ (Rewrites c) pairs pairs' := by
  induction hw with
  | nil => exact ⟨[], rfl, .nil⟩
  | @cons x e l exts hxe _ ih =>
    obtain ⟨pairs', rfl, hrest⟩ := ih fun y hy => h y (List.mem_cons_of_mem _ hy)
    exact ⟨(e, x.2) :: pairs', rfl, .cons (h x List.mem_cons_self e hxe) hrest⟩

theorem Inv.write (hi : Inv c s abs) {exts : List HeapExtent}
    (hw : List.Forall₂ (Scribbled s.live) s.heap.extents exts) :
    ∃ pairs', List.Forall₂ (Rewrites c) abs.pairs pairs' ∧
      Inv c ⟨(s.heap.withUses []).withExtents exts, s.live⟩ { abs with pairs := pairs' } := by
  have hpairs : ∃ pairs', pairs'.map Prod.fst = exts ∧ List.Forall₂ (Rewrites c) abs.pairs pairs' := by
    rw [hi.extents, List.forall₂_map_left_iff] at hw
    exact exists_pairs hw fun x hx e he => he.rewrites hi hx
  obtain ⟨pairs', rfl, hrw⟩ := hpairs
  refine ⟨pairs', hrw, hi.toHeapInv.rewrite hrw rfl rfl rfl, ?_, hi.used, hi.sizes⟩
  rw [blocks_rewrite hrw]
  exact hi.live

end Write

section Runs

variable {c : Cfg} {s s' : State} {op : Op} {abs : Abs} {size : ℕ}

/-- What a step does to the layouts and the rings. -/
inductive Evolves (c : Cfg) (abs : Abs) : Op → Abs → Prop
  | alloc {size : ℕ} {r : Option ℤ} {abs' : Abs} :
      Allocated c abs size r abs' → Evolves c abs (.alloc size) abs'
  | free {b : Block} {abs' : Abs} : Freed abs b.key abs' → Evolves c abs (.free b) abs'
  | extend {raw ext : HeapExtent} {mem : ℤ} {size n : ℕ} :
      Evolves c abs (.extend raw mem size) (abs.extend ext n)
  | refuse {raw : HeapExtent} {mem : ℤ} {size : ℕ} : Evolves c abs (.extend raw mem size) abs
  | write {pairs' : List (HeapExtent × List Seg)} : List.Forall₂ (Rewrites c) abs.pairs pairs' →
      Evolves c abs .write { abs with pairs := pairs' }

/-- What the heap asks of a step. -/
def Meets (c : Cfg) (s : State) : Op → Prop
  | .alloc size => Handled c s.heap size ∧ InFirst s size
  | .free _ => True
  | .extend _ _ _ => True
  | .write => True

/-- The steps of a heap with one extent. -/
def Single (c : Cfg) (s : State) : Op → Prop
  | .alloc size => Handled c s.heap size
  | .free _ => True
  | .extend _ _ _ => False
  | .write => True

theorem initial_inv (h : Initial c s) : ∃ ext n, Inv c s (freshAbs ext n) := by
  obtain ⟨raw, mem, size, ha, hrun, hlive⟩ := h
  rcases init_spec (c := c) raw ha with hnone | ⟨h, ext, n, hsome, hi, hused⟩
  · rw [hrun] at hnone
    cases hnone
  · rw [hrun] at hsome
    obtain rfl : s.heap = h := Option.some.inj (Except.ok.inj hsome)
    refine ⟨ext, n, hi, ?_, ?_, by simp [hlive]⟩
    · rw [hlive]
      exact .nil
    · rw [hused, hlive]
      rfl

theorem Inv.extend (hi : Inv c s abs) {raw : HeapExtent} {mem : ℤ} {r : Option EvlHeap}
    (ha : Area mem size) (hf : ∀ ext ∈ s.heap.extents, ext.memlim ≤ mem ∨ mem + size ≤ ext.mem)
    (hrun : evlExtendHeapUnlocked c (s.heap.withUses []) raw mem size = .ok r) :
    ∃ abs', Evolves c abs (.extend raw mem size) abs' ∧
      Inv c ⟨r.getD (s.heap.withUses []), s.live⟩ abs' := by
  have hi₀ : HeapInv c (s.heap.withUses []) abs := hi.congr rfl rfl rfl
  rcases extend_spec raw hi₀ ha hf with hnone | ⟨h', ext, n, hsome, hi', hused⟩
  · obtain rfl : r = none := Except.ok.inj (hrun.symm.trans hnone)
    exact ⟨abs, .refuse, hi₀, hi.live, hi.used, hi.sizes⟩
  · obtain rfl : r = some h' := Except.ok.inj (hrun.symm.trans hsome)
    refine ⟨abs.extend ext n, .extend, hi', ?_, hused.trans hi.used, hi.sizes⟩
    rw [Abs.extend_blocks]
    exact hi.live

/-- Every step that meets the condition keeps the invariant. -/
theorem step_spec (hi : Inv c s abs) (hm : Meets c s op) (hstep : Step c s op s') :
    ∃ abs', Evolves c abs op abs' ∧ Inv c s' abs' ∧
      ((∃ size, op = .alloc size) ∨ (∃ b, op = .free b) → ∀ u ∈ s'.heap.uses, abs.Names u) := by
  cases hstep with
  | alloc hsize hrun =>
    obtain ⟨h', r, abs', hrun', hout, hi', huses⟩ := hi.alloc (hi.ready hm.1 hm.2)
    obtain ⟨rfl, rfl⟩ := Prod.mk.inj (Except.ok.inj (hrun.symm.trans hrun'))
    exact ⟨abs', .alloc hout, hi', fun _ => huses⟩
  | free hb hrun =>
    obtain ⟨h', abs', hrun', hout, hi', huses⟩ := hi.free hb
    obtain ⟨rfl, rfl⟩ := Prod.mk.inj (Except.ok.inj (hrun.symm.trans hrun'))
    exact ⟨abs', .free hout, hi', fun _ => huses⟩
  | extend ha hf hrun =>
    obtain ⟨abs', hout, hi'⟩ := hi.extend ha hf hrun
    exact ⟨abs', hout, hi', by simp⟩
  | write hw =>
    obtain ⟨pairs', hrw, hi'⟩ := hi.write hw
    exact ⟨_, .write hrw, hi', by simp⟩

/-- No step takes an extent away. -/
theorem Evolves.length_le {abs' : Abs} (h : Evolves c abs op abs') :
    abs.pairs.length ≤ abs'.pairs.length := by
  cases h with
  | alloc h => cases h <;> simp [Abs.set, Abs.relink]
  | free h =>
    generalize Block.key _ = x at h
    cases h <;> simp [Abs.set, Abs.relink]
  | extend => simp [Abs.extend]
  | refuse => exact le_rfl
  | write hw => exact hw.length_eq.le

theorem reach_inv (h : Reach (fun s op s' => Meets c s op ∧ Step c s op s') (Initial c) s) :
    ∃ abs, Inv c s abs ∧ 0 < abs.pairs.length := by
  induction h with
  | init hs =>
    obtain ⟨ext, n, hi⟩ := initial_inv hs
    exact ⟨_, hi, Nat.one_pos⟩
  | step _ hr ih =>
    obtain ⟨abs, hi, hpos⟩ := ih
    obtain ⟨hm, hstep⟩ := hr
    obtain ⟨abs', hout, hi', -⟩ := step_spec hi hm hstep
    exact ⟨abs', hi', hpos.trans_le hout.length_le⟩

theorem Inv.meets (hi : Inv c s abs) (hone : abs.pairs.length = 1) (hs : Single c s op) :
    Meets c s op := by
  cases op with
  | alloc size => exact ⟨hs, hi.inFirst hone⟩
  | free b => trivial
  | extend raw mem size => trivial
  | write => trivial

theorem Evolves.length {abs' : Abs} (h : Evolves c abs op abs') (hs : Single c s op) :
    abs'.pairs.length = abs.pairs.length := by
  cases h with
  | alloc h => cases h <;> simp [Abs.set, Abs.relink]
  | free h =>
    generalize Block.key _ = x at h
    cases h <;> simp [Abs.set, Abs.relink]
  | extend => exact absurd hs id
  | refuse => exact absurd hs id
  | write hw => exact hw.length_eq.symm

/-- A step of a heap with one extent. -/
theorem single_spec (hi : Inv c s abs) (hone : abs.pairs.length = 1) (hs : Single c s op)
    (hstep : Step c s op s') : ∃ abs', Evolves c abs op abs' ∧ Inv c s' abs' ∧
      abs'.pairs.length = 1 := by
  obtain ⟨abs', hout, hi', -⟩ := step_spec hi (hi.meets hone hs) hstep
  exact ⟨abs', hout, hi', (hout.length hs).trans hone⟩

theorem reach_single (h : Reach (fun s op s' => Single c s op ∧ Step c s op s') (Initial c) s) :
    ∃ abs, Inv c s abs ∧ abs.pairs.length = 1 := by
  induction h with
  | init hs =>
    obtain ⟨ext, n, hi⟩ := initial_inv hs
    exact ⟨_, hi, rfl⟩
  | step _ hr ih =>
    obtain ⟨abs, hi, hone⟩ := ih
    obtain ⟨hs, hstep⟩ := hr
    obtain ⟨abs', -, hi', hone'⟩ := single_spec hi hone hs hstep
    exact ⟨abs', hi', hone'⟩

/-- A run over one extent meets the conditions for extents. -/
theorem reach_meets (h : Reach (fun s op s' => Single c s op ∧ Step c s op s') (Initial c) s) :
    Reach (fun s op s' => Meets c s op ∧ Step c s op s') (Initial c) s := by
  induction h with
  | init hs => exact .init hs
  | step h hr ih =>
    obtain ⟨abs, hi, hone⟩ := reach_single h
    exact ih.step ⟨hi.meets hone hr.1, hr.2⟩

end Runs

end Libevl.Heap
