import Libevl.HeapChecks

/-!
# What the pages belong to, and the drained heap

Every page has one owner: a free range, a live block of whole pages, or the live
blocks of a bucket page. When the last block is freed, whatever the order, one
free range is left, and the heap answers as a new one.
-/
namespace Libevl.Heap
open AvlTree Tiling Transition

section Owners

variable {c : Cfg} {s : State} {abs : Abs} {ext : HeapExtent} {segs : List Seg} {p : ℕ}

/-- What a page may be used for. -/
inductive Owner
  | range (a : ℤ)
  | block (b : Block)
  | bucket

/-- The page `p` lies in a linked range, in a live block of whole pages, or holds a live block
of a smaller size whose bit is set in the map. -/
def Owns (s : State) (ext : HeapExtent) (as : List ℤ) (p : ℕ) : Owner → Prop
  | .range a => a ∈ as ∧ a ≤ ext.membase + 512 * p ∧
      ext.membase + 512 * (p + 1) ≤ a + ext.size a
  | .block b => b ∈ s.live ∧ 512 ≤ b.key.2 ∧ b.addr ≤ ext.membase + 512 * p ∧
      ext.membase + 512 * (p + 1) ≤ b.addr + b.key.2
  | .bucket => ∃ l k, Bucketed l ∧ k < slots l ∧ (ext.pagemap p).type = l ∧
      (ext.pagemap p).map.getLsbD k = true ∧
      ∃ b ∈ s.live, b.key = (ext.membase + 512 * p + (k * 2 ^ l : ℕ), 2 ^ l)

/-- Both trees link the ranges `as`, with their sizes, and each page has one owner. -/
structure Represented (s : State) (ext : HeapExtent) (as : List ℤ) : Prop where
  addr : Lists ext.addrTree as
  size : ∃ ss, Lists ext.sizeTree ss ∧ ss.Perm as ∧ ss.Pairwise fun a b => ext.size a ≤ ext.size b
  apart : as.Pairwise fun a b => a + (ext.size a : ℤ) < b
  owner : ∀ p : ℕ, (p : ℤ) < ext.nrpages → ∃! o, Owns s ext as p o

theorem Inv.block_unique (hi : Inv c s abs) {b b' : Block} (hb : b ∈ s.live) (hb' : b' ∈ s.live)
    (hkey : b.key = b'.key) : b = b' := by
  by_contra hne
  have hsymm : Std.Symm fun x y : Block => Apart x.key y.key := ⟨fun _ _ => Apart.symm⟩
  have hpos := (hi.size_le hb').1.trans_le (hi.size_le hb').2
  have happ := List.Pairwise.forall hi.live_apart hb hb' hne
  rw [hkey] at happ
  rcases happ with h | h <;> omega

/-- A page in a range, in a large block or with a small block tells its tile. -/
theorem Inv.tile_of_owner (hi : Inv c s abs) (hone : abs.pairs = [(ext, segs)]) {q : ℕ} {t : Seg}
    (ht : (q, t) ∈ place Seg.pages 0 segs) (hp : q ≤ p ∧ p < q + t.pages) {o : Owner}
    (ho : Owns s ext ((frees ext.membase 0 segs).map Prod.fst) p o) :
    (∃ n, t = .free n ∧ o = .range (ext.membase + 512 * q)) ∨
      (∃ n b, t = .multi n ∧ o = .block b ∧ b ∈ s.live ∧
        b.key = (ext.membase + 512 * q, 512 * n)) ∨
      ∃ l map, t = .bucket l map ∧ o = .bucket := by
  have hold : Holds c ext segs := hi.holds (ext, segs) (by simp [hone])
  have hsame {q' : ℕ} {t' : Seg} (ht' : (q', t') ∈ place Seg.pages 0 segs)
      (hp' : q' ≤ p ∧ p < q' + t'.pages) : q' = q ∧ t' = t :=
    Prod.mk.inj (place_eq ht' ht hp' hp)
  cases o with
  | range a =>
    obtain ⟨ha, hlow, hhigh⟩ := ho
    obtain ⟨r, hr, rfl⟩ := List.mem_map.mp ha
    have hsize := hold.ranges.sizes r hr
    obtain ⟨⟨q', t'⟩, ht', hrt⟩ := List.mem_filterMap.mp hr
    cases t' with
    | multi n => cases hrt
    | bucket l map => cases hrt
    | free n =>
      obtain rfl := Option.some.inj hrt
      simp only at hlow hhigh hsize
      rw [hsize] at hhigh
      obtain ⟨rfl, rfl⟩ := hsame ht' (show q' ≤ p ∧ p < q' + n by omega)
      exact .inl ⟨n, rfl, rfl⟩
  | block b =>
    obtain ⟨hb, hlarge, hlow, hhigh⟩ := ho
    obtain ⟨q', t', ht', hblock⟩ := (hi.live_iff hone).mp ⟨b, hb, rfl⟩
    cases t' with
    | free n => simp [Seg.blocks] at hblock
    | bucket l map =>
      obtain ⟨k, -, hkey⟩ := List.mem_map.mp hblock
      have hl : Bucketed l := (hold.valid _ (mem_of_place ht')).1
      have hlt : 2 ^ l < 512 := Nat.pow_lt_pow_right (by decide) hl.2
      have hsize : 2 ^ l = b.key.2 := congrArg Prod.snd hkey
      omega
    | multi n =>
      have hkey := List.mem_singleton.mp hblock
      have haddr : b.addr = ext.membase + 512 * (q' : ℤ) := congrArg Prod.fst hkey
      have hsize : b.key.2 = 512 * n := congrArg Prod.snd hkey
      obtain ⟨rfl, rfl⟩ := hsame ht' (show q' ≤ p ∧ p < q' + n by omega)
      exact .inr (.inl ⟨n, b, rfl, rfl, hb, hkey⟩)
  | bucket =>
    obtain ⟨l, k, hl, hk, -, -, b, hb, hkey⟩ := ho
    obtain ⟨q', t', ht', hblock⟩ := (hi.live_iff hone).mp ⟨b, hb, rfl⟩
    rw [hkey] at hblock
    have hslot := slot_bounds hl hk
    have hpos : 0 < 2 ^ l := Nat.two_pow_pos l
    obtain ⟨h₁, h₂, -⟩ := (hold.valid t' (mem_of_place ht')).block_page hblock
    obtain ⟨rfl, rfl⟩ := hsame ht' (show q' ≤ p ∧ p < q' + t'.pages by omega)
    cases t' with
    | free n => simp [Seg.blocks] at hblock
    | multi n =>
      have hsize : 2 ^ l = 512 * n := congrArg Prod.snd (List.mem_singleton.mp hblock)
      have hlt : 2 ^ l < 512 := Nat.pow_lt_pow_right (by decide) hl.2
      have hn := (hold.valid (.multi n) (mem_of_place ht')).pages_pos
      simp only [Seg.pages] at hn
      omega
    | bucket l' map => exact .inr (.inr ⟨l', map, rfl, rfl⟩)

theorem Inv.existsUnique_owner (hi : Inv c s abs) (hone : abs.pairs = [(ext, segs)])
    (hp : (p : ℤ) < ext.nrpages) :
    ∃! o, Owns s ext ((frees ext.membase 0 segs).map Prod.fst) p o := by
  have hold : Holds c ext segs := hi.holds (ext, segs) (by simp [hone])
  have htotal := hold.total
  obtain ⟨⟨q, t⟩, ht, hpt⟩ := exists_place (Nat.zero_le p)
    (show p < 0 + cover Seg.pages segs by omega)
  have hdescribed := hold.described _ ht
  have hv := hold.valid t (mem_of_place ht)
  simp only at hpt
  cases t with
  | free n =>
    simp only [Seg.pages] at hpt
    refine ⟨.range (ext.membase + 512 * q), ⟨?_, by omega, ?_⟩, fun o ho => ?_⟩
    · exact List.mem_map.mpr ⟨_, List.mem_filterMap.mpr ⟨_, ht, rfl⟩, rfl⟩
    · have hsize := hold.ranges.sizes _ (List.mem_filterMap.mpr ⟨_, ht, rfl⟩)
      simp only at hsize
      rw [hsize]
      omega
    · rcases hi.tile_of_owner hone ht hpt ho with ⟨_, -, rfl⟩ | ⟨_, _, heq, -⟩ | ⟨_, _, heq, -⟩
      · rfl
      · cases heq
      · cases heq
  | multi n =>
    have hn := hv.pages_pos
    simp only [Seg.pages] at hpt hn
    obtain ⟨b, hb, hkey⟩ := (hi.live_iff hone).mpr ⟨q, _, ht, List.mem_singleton_self _⟩
    have haddr : b.addr = ext.membase + 512 * (q : ℤ) := congrArg Prod.fst hkey
    have hsize : b.key.2 = 512 * n := congrArg Prod.snd hkey
    refine ⟨.block b, ⟨hb, by omega, by omega, by omega⟩, fun o ho => ?_⟩
    rcases hi.tile_of_owner hone ht hpt ho with ⟨_, heq, -⟩ | ⟨m, b', heq, rfl, hb', hkey'⟩ |
        ⟨_, _, heq, -⟩
    · cases heq
    · obtain rfl := Seg.multi.inj heq
      rw [hi.block_unique hb' hb (hkey'.trans hkey.symm)]
    · cases heq
  | bucket l map =>
    obtain ⟨hl, -, hbusy⟩ := hv
    obtain ⟨htype, hmap, -⟩ := hdescribed
    obtain ⟨k, hk⟩ := List.exists_mem_of_ne_nil _ hbusy
    obtain ⟨hslot, hbit⟩ := mem_busy.mp hk
    obtain rfl : p = q := by
      have := hpt.2
      simp only [Seg.pages] at this
      omega
    obtain ⟨b, hb, hkey⟩ := (hi.live_iff hone).mpr ⟨p, _, ht, List.mem_map.mpr ⟨k, hk, rfl⟩⟩
    refine ⟨.bucket, ⟨l, k, hl, hslot, htype, hmap ▸ hbit, b, hb, hkey⟩, fun o ho => ?_⟩
    rcases hi.tile_of_owner hone ht hpt ho with ⟨_, heq, -⟩ | ⟨_, _, heq, -⟩ | ⟨_, _, -, rfl⟩
    · cases heq
    · cases heq
    · rfl

/-- In every run over one extent whose requests the heap handles, each page has one owner, the two
trees agree with it, and the live blocks add up to the size in use. -/
theorem represented_of_handled
    (h : Reach (fun s op s' => Single c s op ∧ Step c s op s') (Initial c) s) :
    (∃ ext as, s.heap.extents = [ext] ∧ Represented s ext as) ∧
      s.heap.usedSize = (s.live.map fun b => b.key.2).sum ∧
      s.heap.usedSize ≤ s.heap.usableSize := by
  obtain ⟨abs, hi, hlen⟩ := reach_single h
  obtain ⟨⟨ext, segs⟩, hone⟩ := List.length_eq_one_iff.mp hlen
  have hold : Holds c ext segs := hi.holds (ext, segs) (by simp [hone])
  refine ⟨⟨ext, _, ?_, hold.ranges.addr, hold.ranges.size, ?_,
    fun p hp => hi.existsUnique_owner hone hp⟩, hi.used_eq⟩
  · rw [hi.extents, hone, List.map_singleton]
  · refine List.pairwise_map.mpr (hold.ranges.apart.imp_of_mem fun {r q} hr _ hlt => ?_)
    rw [hold.ranges.sizes r hr]
    exact hlt

/-- Three pages: a bucketed block and a block of one page are live. -/
theorem represented_of_handled_pair : ∃ s, (newHeap ⟨true, true⟩ 3 >>= fun s =>
      runs (exec ⟨true, true⟩) s [.alloc 100, .alloc 512]) = some s ∧
    s.heap.usedSize = 640 ∧ ∃ ext as, s.heap.extents = [ext] ∧ Represented s ext as := by
  have hrun : ((newHeap ⟨true, true⟩ 3 >>= fun s =>
      runs (exec ⟨true, true⟩) s [.alloc 100, .alloc 512]).map fun s => s.heap.usedSize) =
        some 640 := by decide
  obtain ⟨s, hs, hused⟩ := Option.map_eq_some_iff.mp hrun
  have hsmall : ∀ op ∈ [Op.alloc 100, .alloc 512], op.small = true := by decide
  have hreach : Reach (fun s op s' => Single ⟨true, true⟩ s op ∧ Step ⟨true, true⟩ s op s')
      (Initial ⟨true, true⟩) s :=
    reach_replay hs (fun _ hs₀ => newHeap_initial hs₀ (by decide))
      fun op hop _ _ h => ⟨single_of_small rfl (hsmall op hop), h⟩
  exact ⟨s, hs, hused, (represented_of_handled hreach).1⟩

/-- A request of 2^63 + 512 bytes is granted from one page, and counted as used. -/
theorem not_represented_huge : ¬ ∀ (c : Cfg) (s : State),
    Reach (fun s op s' => (∀ raw mem size, op ≠ .extend raw mem size) ∧ Step c s op s')
      (Initial c) s → s.heap.usedSize ≤ s.heap.usableSize := by
  intro h
  have hrun : ((newHeap ⟨true, false⟩ 1 >>= fun s =>
      runs (exec ⟨true, false⟩) s [.alloc (2 ^ 63 + 512)]).map fun s =>
        (s.heap.usedSize, s.heap.usableSize)) = some (2 ^ 63 + 512, 512) := by decide
  obtain ⟨s, hs, hval⟩ := Option.map_eq_some_iff.mp hrun
  obtain ⟨hused, husable⟩ := Prod.mk.inj hval
  have hreach : Reach (fun s op s' => (∀ raw mem size, op ≠ .extend raw mem size) ∧
      Step ⟨true, false⟩ s op s') (Initial ⟨true, false⟩) s := by
    apply reach_replay hs fun _ hs₀ => newHeap_initial hs₀ (by decide)
    intro op hop s s' h
    obtain rfl := List.mem_singleton.mp hop
    exact ⟨fun _ _ _ heq => (nomatch heq), h⟩
  have := h _ _ hreach
  rw [hused, husable] at this
  omega

end Owners

section Drain

variable {c : Cfg} {s s' : State} {op : Op} {abs abs' : Abs} {size : ℕ} {ext : HeapExtent}
  {segs : List Seg} {r : Option ℤ}

/-- Frees that all return 0, one after the other. -/
inductive Frees (c : Cfg) : State → List Block → State → Prop
  | nil {s : State} : Frees c s [] s
  | cons {s s' : State} {b : Block} {bs : List Block} {h' : EvlHeap} : b ∈ s.live →
      evlFreeBlockUnlocked c (s.heap.withUses []) b.addr = .ok (h', 0) →
      Frees c ⟨h', s.live.erase b⟩ bs s' → Frees c s (b :: bs) s'

/-- Nothing is in use, and one free range takes all pages. -/
structure Drained (s : State) : Prop where
  live : s.live = []
  buckets : ∀ i < 5, s.heap.buckets i = -1
  used : s.heap.usedSize = 0
  range : ∃ ext, s.heap.extents = [ext] ∧ Lists ext.addrTree [ext.membase] ∧
    Lists ext.sizeTree [ext.membase] ∧ ext.membase + ext.size ext.membase = ext.memlim

/-- The pages of each extent. -/
def Abs.covers (abs : Abs) : List ℕ := abs.pairs.map fun x => cover Seg.pages x.2

theorem Abs.covers_set {j : ℕ} {ext' : HeapExtent} {segs' : List Seg}
    (hj : abs.pairs[j]? = some (ext, segs)) (hcov : cover Seg.pages segs' = cover Seg.pages segs) :
    (abs.set j ext' segs').covers = abs.covers := by
  rw [Abs.covers, Abs.set]
  exact map_set_same (f := fun x : HeapExtent × List Seg => cover Seg.pages x.2) (ext', segs') hj hcov

theorem cover_carved {A B : List Seg} {n k : ℕ} {t : Seg} (hkn : k ≤ n) (ht : t.pages = k) :
    cover Seg.pages (carved A n k t B) = cover Seg.pages (A ++ .free n :: B) := by
  have hfree : Seg.pages (.free n) = n := rfl
  simp only [carved, cover_append, cover_cons, cover_nil, cover_remain, ht, hfree]
  omega

theorem cover_released {A B : List Seg} {t : Seg} {L R : Option ℕ} :
    cover Seg.pages (A ++ .free (L.getD 0 + t.pages + R.getD 0) :: B) =
      cover Seg.pages (A ++ (Option.map Seg.free L).toList ++
        t :: ((Option.map Seg.free R).toList ++ B)) := by
  have hcover (t : Option ℕ) : cover Seg.pages (Option.map Seg.free t).toList = t.getD 0 :=
    (frees_option 0 0 t).2.1
  have hfree (n : ℕ) : Seg.pages (.free n) = n := rfl
  simp only [cover_append, cover_cons, hcover, hfree]
  omega

theorem Evolves.covers (hev : Evolves c abs op abs') (hs : Single c s op) :
    abs'.covers = abs.covers := by
  cases hev with
  | alloc ha =>
    cases ha with
    | empty => rfl
    | noRange => rfl
    | noPage => rfl
    | range ext' _ _ _ hf => exact Abs.covers_set hf.place (cover_carved hf.fits rfl)
    | page ext' _ _ _ _ hf => exact Abs.covers_set hf.place (cover_carved hf.fits rfl)
    | hit ext' _ _ _ hj _ _ _ => exact Abs.covers_set hj (by simp [Seg.pages])
  | free hfreed =>
    generalize Block.key _ = x at hfreed
    cases hfreed with
    | @range j n ext A B L R ext' hj =>
      exact Abs.covers_set hj (cover_released (t := .multi n))
    | @last j l k ext A B map L R P Q ext' hj =>
      exact Abs.covers_set hj (cover_released (t := .bucket l map))
    | slot ext' hj => exact Abs.covers_set hj (by simp [Seg.pages])
  | extend => exact absurd hs id
  | refuse => exact absurd hs id
  | write hw => exact (map_eq_of_forall₂ hw fun x y hr => by rw [hr.layout]).symm

theorem HeapInv.usable_covers {h : EvlHeap} (hi : HeapInv c h abs) :
    h.usableSize = (abs.covers.map fun n => 512 * n).sum := by
  rw [hi.usable_eq.1, Abs.covers, List.map_map]
  rfl

/-- The usable size never changes. -/
theorem reach_usable {I : State → Prop} {n : ℕ} (hI : ∀ s, I s → Initial c s ∧ s.heap.usableSize = n)
    (h : Reach (fun s op s' => Single c s op ∧ Step c s op s') I s) :
    ∃ abs, Inv c s abs ∧ abs.pairs.length = 1 ∧ s.heap.usableSize = n := by
  induction h with
  | init hs =>
    obtain ⟨ext, m, hi⟩ := initial_inv (hI _ hs).1
    exact ⟨_, hi, rfl, (hI _ hs).2⟩
  | step _ hr ih =>
    obtain ⟨abs, hi, hone, hn⟩ := ih
    obtain ⟨hs, hstep⟩ := hr
    obtain ⟨abs', hev, hi', hone'⟩ := single_spec hi hone hs hstep
    refine ⟨abs', hi', hone', ?_⟩
    rw [hi'.toHeapInv.usable_covers, hev.covers hs, ← hi.toHeapInv.usable_covers, hn]

/-- Tiles without blocks are one free tile. -/
theorem Holds.idle (hold : Holds c ext segs) (hblocks : blocksOf ext.membase 0 segs = [])
    (hne : ext.membase < ext.memlim) : ∃ n, segs = [.free n] := by
  have hnone {A B : List Seg} {t : Seg} (hs : segs = A ++ t :: B) : ∃ n, t = .free n := by
    have ht : t ∈ segs := by simp [hs]
    have hempty : t.blocks (ext.membase + 512 * ((0 + cover Seg.pages A : ℕ) : ℤ)) = [] := by
      rw [hs, blocksOf_append, blocksOf_cons] at hblocks
      exact (List.append_eq_nil_iff.mp (List.append_eq_nil_iff.mp hblocks).2).1
    cases t with
    | free n => exact ⟨n, rfl⟩
    | multi n => cases hempty
    | bucket l map => exact absurd (List.map_eq_nil_iff.mp hempty) (hold.valid _ ht).2.2
  cases hs : segs with
  | nil =>
    have hlimit := hold.limit
    have htotal := hold.total
    rw [hs, cover_nil] at htotal
    omega
  | cons t rest =>
    obtain ⟨n, rfl⟩ := hnone (A := []) hs
    cases hrest : rest with
    | nil => exact ⟨n, rfl⟩
    | cons t' rest' =>
      obtain ⟨m, rfl⟩ := hnone (A := [.free n]) (hs.trans (by rw [hrest]; rfl))
      have happ := hold.ranges.apart
      rw [hs, hrest, frees_free, frees_free] at happ
      have hlt := (List.pairwise_cons.mp happ).1 _ List.mem_cons_self
      simp only at hlt
      omega

/-- Without live blocks, the layout is that of a new heap. -/
theorem Inv.layout_of_idle (hi : Inv c s abs) (hone : abs.pairs.length = 1) (hlive : s.live = []) :
    ∃ ext n, abs.pairs = [(ext, [.free n])] ∧ ∀ i < 5, abs.ring i = [] := by
  obtain ⟨⟨ext, segs⟩, hx⟩ := List.length_eq_one_iff.mp hone
  have hold : Holds c ext segs := hi.holds (ext, segs) (by simp [hx])
  have hblocks : blocksOf ext.membase 0 segs = [] := by
    have hperm := hi.live
    rw [hlive, Abs.blocks, hx, List.flatMap_singleton] at hperm
    exact List.nil_perm.mp hperm
  have hheader := hi.headers (ext, segs) (by simp [hx])
  obtain ⟨n, rfl⟩ := hold.idle hblocks hheader.2.2.1
  refine ⟨ext, n, hx, fun i hi5 => ?_⟩
  by_contra hne
  obtain ⟨y, hy⟩ := List.exists_mem_of_ne_nil _ hne
  have hhome := hi.rings.home i hi5 hne
  have hpage := (hi.rings.mem i hi5 0 (ext, [.free n]) (by rw [hx]; rfl) y).mpr ⟨by omega, hy⟩
  simp at hpage

theorem Inv.drained (hi : Inv c s abs) (hone : abs.pairs.length = 1) (hlive : s.live = []) :
    Drained s := by
  obtain ⟨ext, n, hx, hring⟩ := hi.layout_of_idle hone hlive
  have hold : Holds c ext [.free n] := hi.holds (ext, [.free n]) (by simp [hx])
  have hused := hi.used_eq.1
  rw [hlive] at hused
  have hfrees : frees ext.membase 0 [.free n] = [(ext.membase, 512 * n)] := by simp
  have hranges := hold.ranges
  rw [hfrees] at hranges
  refine ⟨hlive, fun i hi5 => ?_, hused, ext, ?_, hranges.addr, ?_, ?_⟩
  · rw [hi.rings.head i hi5, hring i hi5]
    rfl
  · rw [hi.extents, hx, List.map_singleton]
  · obtain ⟨ss, hss, hperm, -⟩ := hranges.size
    obtain rfl := List.perm_singleton.mp hperm
    exact hss
  · have hsize := hranges.sizes _ List.mem_cons_self
    have hcover : cover Seg.pages [.free n] = n := Nat.add_zero n
    have hlimit := hold.limit
    have htotal := hold.total
    simp only at hsize
    rw [hcover] at htotal
    omega

/-- Live blocks are freed in any order. -/
theorem Inv.frees (hi : Inv c s abs) (hone : abs.pairs.length = 1) {bs : List Block}
    (hbs : bs.Perm s.live) : ∃ s' abs', Frees c s bs s' ∧ Inv c s' abs' ∧ abs'.pairs.length = 1 ∧
      s'.live = [] ∧ abs'.covers = abs.covers := by
  induction bs generalizing s abs with
  | nil => exact ⟨s, abs, .nil, hi, hone, List.nil_perm.mp hbs, rfl⟩
  | cons b bs ih =>
    have hb : b ∈ s.live := hbs.mem_iff.mp List.mem_cons_self
    obtain ⟨h', abs', hrun, hfreed, hi', -⟩ := hi.free hb
    have hev : Evolves c abs (.free b) abs' := .free hfreed
    have hsingle : Single c s (.free b) := trivial
    have hrest : bs.Perm (s.live.erase b) :=
      (List.cons_perm_iff_perm_erase.mp hbs).2
    obtain ⟨s', abs'', hfrees, hi'', hone', hlive, hcov⟩ :=
      ih hi' ((hev.length hsingle).trans hone) hrest
    exact ⟨s', abs'', .cons hb hrun hfrees, hi'', hone', hlive, hcov.trans (hev.covers hsingle)⟩

end Drain

end Libevl.Heap
