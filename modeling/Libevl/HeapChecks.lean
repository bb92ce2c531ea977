import Libevl.HeapSafety

/-!
# Requests that are refused

An allocation beyond the usable size gives nothing and changes nothing, as long
as its size compares the right way round. With page marking, a free looks at the
kind of the page: what is not the start of a live block is refused, unless it is
in the first page of a large block or an idle slot of a bucket page.
-/
namespace Libevl.Heap
open AvlTree Tiling Transition

section Oversized

variable {c : Cfg} {h : EvlHeap} {s : State} {abs : Abs} {size n k : ℕ} {ext : HeapExtent}

/-- The request is refused, and nothing changes. -/
def Refused (c : Cfg) (s : State) (size : ℕ) : Prop :=
  evlAllocBlockUnlocked c (s.heap.withUses []) size = .ok (s.heap.withUses [], none)

theorem bind_eq_ok {ε α β : Type} {x : Except ε α} {f : α → Except ε β} {b : β} :
    x >>= f = .ok b ↔ ∃ a, x = .ok a ∧ f a = .ok b := by
  cases x with
  | error e => exact iff_of_false (by rintro ⟨⟩) (by rintro ⟨a, ⟨⟩, -⟩)
  | ok a => exact ⟨fun h => ⟨a, rfl, h⟩, by rintro ⟨a, ⟨⟩, h⟩; exact h⟩

/-- A scan that finds nothing and changes nothing went through all extents. -/
theorem reserveScan_unchanged {exts : List HeapExtent}
    (hs : reserveScan c n exts = .ok (exts, none)) :
    ∀ e ∈ exts, ∃ pg, reservePageRange c e n = .ok (e, pg) := by
  induction exts with
  | nil => simp
  | cons e exts ih =>
    obtain ⟨⟨e', pg⟩, hrun, hs⟩ := bind_eq_ok.mp hs
    simp only at hs
    by_cases hpg : 0 ≤ pg
    · rw [if_pos hpg] at hs
      cases hs
    · rw [if_neg hpg] at hs
      obtain ⟨⟨rest, found⟩, hrest, hs⟩ := bind_eq_ok.mp hs
      obtain ⟨hcons, hnone⟩ := Prod.mk.inj (Except.ok.inj hs)
      obtain ⟨rfl, rfl⟩ := List.cons.inj hcons
      obtain rfl := Option.map_eq_none_iff.mp hnone
      exact List.forall_mem_cons.mpr ⟨⟨pg, hrun⟩, ih hrest⟩

/-- A range that is found for a size which is not its own loses its end. -/
theorem reservePageRange_ne {a pg : ℤ} (hfind : findSuitableRange ext n = .ok (some a))
    (hn : 0 < n ∧ n < 2 ^ 64) (ha : ext.size a < n) :
    reservePageRange c ext n ≠ .ok (ext, pg) := by
  intro hrun
  obtain ⟨r, hr, hrun⟩ := bind_eq_ok.mp hrun
  obtain rfl := Except.ok.inj (hr.symm.trans hfind)
  obtain ⟨t, -, hrun⟩ := bind_eq_ok.mp hrun
  have hne : (ext.withSizeTree t).size a ≠ n := ha.ne
  rw [if_neg hne] at hrun
  obtain ⟨t', -, hrun⟩ := bind_eq_ok.mp hrun
  have hsize := congrArg (fun x => x.1.size a) (Except.ok.inj hrun)
  have hself : sizeSub (ext.size a) n = ext.size a := by
    simpa [HeapExtent.withSizeTree, HeapExtent.setSize] using hsize
  rw [sizeSub] at hself
  omega

theorem alloc_wrap {h' : EvlHeap} {r : Option ℤ} (hsize : 2 ^ 64 - 512 < size)
    (hlt : size < 2 ^ 64) (hne : h.extents ≠ []) :
    evlAllocBlockUnlocked c h size ≠ .ok (h', r) := by
  intro hrun
  rw [evlAllocBlockUnlocked, if_neg (by omega), blockSize_wrap hsize hlt] at hrun
  simp only [Nat.ofNat_pos, if_true] at hrun
  obtain ⟨u, -, hrun⟩ := bind_eq_ok.mp hrun
  obtain ⟨x, hscan, -⟩ := bind_eq_ok.mp hrun
  obtain ⟨e, exts, hexts⟩ := List.exists_cons_of_ne_nil hne
  rw [hexts] at hscan
  obtain ⟨pg, hpg, -⟩ := bind_eq_ok.mp hscan
  cases hpg

/-- Requests of whole pages skip the buckets. -/
theorem alloc_pages_unfold {l : ℕ} (hsize : size ≠ 0) (hk : 0 < k)
    (hbs : blockSize size = (512 * k, l)) :
    evlAllocBlockUnlocked c h size = addFreeRange c h (512 * k) 0 := by
  have hge : ¬ 512 * k < 512 := by omega
  simp only [evlAllocBlockUnlocked, hsize, if_false, hbs, hge]

/-- A request that compares the wrong way round with the root of a size tree is not refused. -/
theorem HeapInv.fits_of_refused (hi : HeapInv c h abs) (hk : 512 * k + 511 < 2 ^ 64) {l : ℕ}
    (hrun : addFreeRange c h (512 * k) l = .ok (h, none)) :
    ∀ ext ∈ h.extents, ext.Fits (512 * k) := by
  intro ext hext
  by_contra hfit
  have hlarge : 2 ^ 63 ≤ 512 * k := by
    by_contra hlt
    exact hfit (HeapExtent.fits_of_lt (by omega))
  obtain ⟨⟨exts, found⟩, hscan, hrun⟩ := bind_eq_ok.mp hrun
  rw [alignTo_pages hk] at hscan
  have hfound : found = none ∧ exts = h.extents := by
    cases found with
    | none => exact ⟨rfl, congrArg (fun x => x.1.extents) (Except.ok.inj hrun)⟩
    | some x =>
      obtain ⟨j, pg⟩ := x
      simp only at hrun
      split at hrun
      · cases hrun
      · obtain ⟨y, -, hrun⟩ := bind_eq_ok.mp hrun
        cases hrun
  obtain ⟨rfl, rfl⟩ := hfound
  obtain ⟨pg, hpg⟩ := reserveScan_unchanged hscan ext hext
  rw [hi.extents] at hext
  obtain ⟨x, hx, rfl⟩ := List.mem_map.mp hext
  have hranges := (hi.holds x hx).ranges
  obtain ⟨r, hr, hfind⟩ := (hranges.suitable_huge ⟨hlarge, by omega⟩).2 hfit
  have hsmall := (hranges.pos r hr).2
  have hsize := hranges.sizes r hr
  exact reservePageRange_ne hfind ⟨by omega, by omega⟩ (by omega) hpg

/-- In every run that meets the conditions of the steps, a request beyond the usable size is
refused exactly if it compares the right way round with the root of every size tree and does not
wrap when it is rounded. -/
theorem refused_iff_fits (h : Reach (fun s op s' => Meets c s op ∧ Step c s op s') (Initial c) s)
    (hbig : s.heap.usableSize < size) (hlt : size < 2 ^ 64) :
    Refused c s size ↔ RequestFits s.heap size := by
  obtain ⟨abs, hi, hpos⟩ := reach_inv h
  have hi₀ : HeapInv c (s.heap.withUses []) abs := hi.congr rfl rfl rfl
  obtain ⟨x, pairs, hpairs⟩ := List.exists_cons_of_length_pos hpos
  have hne : s.heap.extents ≠ [] := by simp [hi.extents, hpairs]
  have hpage : 512 ≤ s.heap.usableSize := by
    have hx : x ∈ abs.pairs := by simp [hpairs]
    have hlimit := (hi.holds x hx).limit
    have htotal := (hi.holds x hx).total
    have hheader := (hi.headers x hx).2.2.1
    have := hi.le_usable hx
    omega
  rw [RequestFits]
  by_cases hwrap : 2 ^ 64 - 512 < size
  · exact iff_of_false (alloc_wrap hwrap hlt hne) fun hfit => by omega
  have hmax : size ≤ 2 ^ 64 - 512 := by omega
  obtain ⟨hle, hcases⟩ := blockSize_cases hmax
  rcases hcases with ⟨l, hl, hbs⟩ | ⟨k, l, hk, hk', hbs⟩
  · have hpow : 2 ^ l < 512 := Nat.pow_lt_pow_right (by decide) hl.2
    rw [hbs] at hle
    simp only at hle
    omega
  rw [Refused, alloc_pages_unfold (by omega) hk hbs, hbs]
  rw [hbs] at hle
  simp only at hle ⊢
  constructor
  · intro hrun
    exact ⟨by omega, hi₀.fits_of_refused hk' hrun⟩
  · rintro ⟨-, hfit⟩
    refine addFreeRange_none hi₀ hk (by omega) hfit (alignTo_pages hk') fun y hy n hn => ?_
    have := hi.le_usable hy
    have hcover : Seg.pages (.free n) ≤ cover Seg.pages y.2 := le_cover_of_mem hn
    rw [Seg.pages] at hcover
    omega

/-- Two pages, one of them in use: three pages are refused. -/
theorem refused_iff_fits_three : ∃ s, (newHeap ⟨true, true⟩ 2 >>= fun s =>
      runs (exec ⟨true, true⟩) s [.alloc 16]) = some s ∧ Refused ⟨true, true⟩ s 1536 := by
  have hrun : ((newHeap ⟨true, true⟩ 2 >>= fun s =>
      runs (exec ⟨true, true⟩) s [.alloc 16]).map fun s => s.heap.usableSize) =
        some 1024 := by decide
  obtain ⟨s, hs, husable⟩ := Option.map_eq_some_iff.mp hrun
  obtain ⟨s₀, hs₀, hruns⟩ := Option.bind_eq_some_iff.mp hs
  obtain ⟨s₁, hs₁, hruns₁⟩ := Option.bind_eq_some_iff.mp hruns
  obtain rfl : s₁ = s := Option.some.inj hruns₁
  have hmeets : Meets ⟨true, true⟩ s₀ (.alloc 16) := by
    refine ⟨handled_of_exact rfl (by decide), fun ext rest _ _ b hb => ?_⟩
    rw [newHeap_live hs₀] at hb
    cases hb
  have hreach : Reach (fun s op s' => Meets ⟨true, true⟩ s op ∧ Step ⟨true, true⟩ s op s')
      (Initial ⟨true, true⟩) s₁ :=
    .step (.init (newHeap_initial hs₀ (by decide))) ⟨hmeets, exec_step hs₁⟩
  refine ⟨s₁, hs, (refused_iff_fits hreach (by omega) (by decide)).mpr ?_⟩
  exact (handled_of_exact (c := ⟨true, true⟩) rfl (by decide)).fits

/-- In a heap of one page, a request of 2^63 + 512 bytes is granted. -/
theorem not_refused_huge : ¬ ∀ (c : Cfg) (s : State),
    Reach (fun s op s' => Step c s op s') (Initial c) s → ∀ size, s.heap.usableSize < size →
      size < 2 ^ 64 → Refused c s size := by
  intro h
  have hrun : ((newHeap ⟨true, false⟩ 1).map fun s => (s.heap.usableSize,
      (evlAllocBlockUnlocked ⟨true, false⟩ (s.heap.withUses []) (2 ^ 63 + 512)).toOption.map
        Prod.snd)) = some (512, some (some 4272)) := by decide
  obtain ⟨s, hs, hval⟩ := Option.map_eq_some_iff.mp hrun
  obtain ⟨husable, hsome⟩ := Prod.mk.inj hval
  have href := h _ _ (.init (newHeap_initial hs (by decide))) (2 ^ 63 + 512) (by omega) (by decide)
  rw [Refused] at href
  rw [href] at hsome
  cases hsome

end Oversized

section Frees

variable {c : Cfg} {h : EvlHeap} {s : State} {abs : Abs} {a : ℤ} {ext : HeapExtent}
  {segs : List Seg} {q l n k : ℕ} {t : Seg} {map : BitVec 32}

/-- A free of the start of a live block returns 0; any other is refused, and changes nothing. -/
def Checked (c : Cfg) (s : State) (a : ℤ) : Prop :=
  ∃ h' r, evlFreeBlockUnlocked c (s.heap.withUses []) a = .ok (h', r) ∧
    (r = 0 ↔ ∃ b ∈ s.live, b.addr = a) ∧
    (r ≠ 0 → r = -einval ∧ h' = s.heap.withUses [])

/-- Addresses that pass for live blocks: those behind the start of a large block in its first
page, and the idle slots of a page with live blocks. -/
def Mistaken (s : State) (a : ℤ) : Prop :=
  (∃ b ∈ s.live, 512 ≤ b.key.2 ∧ b.addr < a ∧ a < b.addr + 512) ∨
    ∃ ext ∈ s.heap.extents, ∃ b ∈ s.live, b.key.2 < 512 ∧
      (a - ext.membase) / 512 = (b.addr - ext.membase) / 512 ∧
      (a - ext.membase) % b.key.2 = 0 ∧ ∀ b' ∈ s.live, b'.addr ≠ a

/-- The addresses that pass for live blocks, in the tile of the page. -/
def Passes (base : ℤ) (a : ℤ) : ℕ × Seg → Prop
  | (_, .free _) => False
  | (p, .multi _) => base + 512 * (p : ℤ) < a ∧ a < base + 512 * (p : ℤ) + 512
  | (p, .bucket l map) => ∃ k < slots l, k ∉ busy l map ∧
      a = base + 512 * (p : ℤ) + (k * 2 ^ l : ℕ)

theorem Inv.live_iff (hi : Inv c s abs) (hone : abs.pairs = [(ext, segs)]) {z : ℤ × ℕ} :
    (∃ b ∈ s.live, b.key = z) ↔
      ∃ q t, (q, t) ∈ place Seg.pages 0 segs ∧ z ∈ t.blocks (ext.membase + 512 * (q : ℤ)) := by
  have hmem : (∃ b ∈ s.live, b.key = z) ↔ z ∈ abs.blocks := by
    rw [← hi.live.mem_iff, List.mem_map]
  rw [hmem, Abs.blocks, hone, List.flatMap_singleton, blocksOf, List.mem_flatMap]
  constructor
  · rintro ⟨⟨q, t⟩, h₁, h₂⟩
    exact ⟨q, t, h₁, h₂⟩
  · rintro ⟨q, t, h₁, h₂⟩
    exact ⟨(q, t), h₁, h₂⟩

/-- Two tiles with a common page are the same. -/
theorem place_eq {x y : ℕ × Seg} {p : ℕ} (hx : x ∈ place Seg.pages 0 segs)
    (hy : y ∈ place Seg.pages 0 segs) (hpx : x.1 ≤ p ∧ p < x.1 + x.2.pages)
    (hpy : y.1 ≤ p ∧ p < y.1 + y.2.pages) : x = y := by
  rcases place_apart hx hy with heq | hlt | hlt
  · exact heq
  · omega
  · omega

/-- What the start of a block tells about its tile. -/
theorem Seg.Valid.block_page {base z : ℤ} {m : ℕ} (ht : t.Valid) (hz : (z, m) ∈ t.blocks base) :
    base ≤ z ∧ z < base + 512 * t.pages ∧ 0 < m := by
  obtain ⟨h₁, h₂, -, h₃⟩ := ht.blocks_bounds hz
  simp only at h₁ h₂ h₃
  omega

theorem Inv.passes_of_mistaken (hi : Inv c s abs) (hone : abs.pairs = [(ext, segs)]) {p : ℕ}
    (ht : (q, t) ∈ place Seg.pages 0 segs) (hp : q ≤ p ∧ p < q + t.pages)
    (ha : ext.membase + 512 * (p : ℤ) ≤ a ∧ a < ext.membase + 512 * (p : ℤ) + 512)
    (hm : Mistaken s a) : Passes ext.membase a (q, t) := by
  have hold := hi.holds (ext, segs) (by simp [hone])
  rcases hm with ⟨b, hb, hlarge, hlow, hhigh⟩ | ⟨e, he, b, hb, hsmall, hpage, hmod, hno⟩
  · obtain ⟨q', t', ht', hblock⟩ := (hi.live_iff hone).mp ⟨b, hb, rfl⟩
    cases t' with
    | free m => simp [Seg.blocks] at hblock
    | multi m =>
      have hkey := List.mem_singleton.mp hblock
      have haddr : b.addr = ext.membase + 512 * (q' : ℤ) := congrArg Prod.fst hkey
      have hm : 0 < m := hold.valid _ (mem_of_place ht')
      have heq := place_eq ht ht' hp (show q' ≤ p ∧ p < q' + m by omega)
      obtain ⟨rfl, rfl⟩ := Prod.mk.inj heq
      exact ⟨by omega, by omega⟩
    | bucket l map =>
      obtain ⟨k, -, hkey⟩ := List.mem_map.mp hblock
      have hbucketed : Bucketed l := (hold.valid _ (mem_of_place ht')).1
      have hlt : 2 ^ l < 512 := Nat.pow_lt_pow_right (by decide) hbucketed.2
      have hsize : 2 ^ l = b.key.2 := congrArg Prod.snd hkey
      omega
  · have hext : s.heap.extents = [ext] := by rw [hi.extents, hone, List.map_singleton]
    obtain rfl : e = ext := by
      rw [hext] at he
      exact List.mem_singleton.mp he
    obtain ⟨q', t', ht', hblock⟩ := (hi.live_iff hone).mp ⟨b, hb, rfl⟩
    cases t' with
    | free m => simp [Seg.blocks] at hblock
    | multi m =>
      have hsize : b.key.2 = 512 * m := congrArg Prod.snd (List.mem_singleton.mp hblock)
      have hm : 0 < m := hold.valid _ (mem_of_place ht')
      omega
    | bucket l map =>
      obtain ⟨k₀, hk₀, hkey⟩ := List.mem_map.mp hblock
      have hbucketed : Bucketed l := (hold.valid _ (mem_of_place ht')).1
      have hsize : 2 ^ l = b.key.2 := congrArg Prod.snd hkey
      have haddr : e.membase + 512 * (q' : ℤ) + (k₀ * 2 ^ l : ℕ) = b.addr := congrArg Prod.fst hkey
      have hslot := slot_bounds hbucketed (mem_busy.mp hk₀).1
      have hpos : 0 < 2 ^ l := Nat.two_pow_pos l
      have heq := place_eq ht ht' hp (show q' ≤ p ∧ p < q' + 1 by omega)
      obtain ⟨rfl, rfl⟩ := Prod.mk.inj heq
      have hdvd : ((2 ^ l : ℕ) : ℤ) ∣ 512 * (q : ℤ) := by
        have : 2 ^ l ∣ 512 := pow_dvd_pow 2 (show l ≤ 9 from hbucketed.2.le)
        exact Dvd.dvd.mul_right (Int.natCast_dvd_natCast.mpr this) _
      have hoff : ((2 ^ l : ℕ) : ℤ) ∣ a - e.membase - 512 * (q : ℤ) := by
        rw [← hsize] at hmod
        exact dvd_sub (Int.dvd_of_emod_eq_zero hmod) hdvd
      obtain ⟨m, hm⟩ := Int.eq_ofNat_of_zero_le (show 0 ≤ a - e.membase - 512 * (q : ℤ) by omega)
      rw [hm] at hoff
      obtain ⟨k, rfl⟩ := Int.natCast_dvd_natCast.mp hoff
      rw [Nat.mul_comm (2 ^ l) k] at hm
      have hk : k < slots l := by
        refine Nat.lt_of_mul_lt_mul_right (a := 2 ^ l) ?_
        rw [slots_mul hbucketed]
        omega
      refine ⟨k, hk, fun hbusy => ?_, by omega⟩
      have hthere : (e.membase + 512 * (q : ℤ) + (k * 2 ^ l : ℕ), 2 ^ l) ∈
          (Seg.bucket l map).blocks (e.membase + 512 * (q : ℤ)) := List.mem_map.mpr ⟨k, hbusy, rfl⟩
      obtain ⟨b', hb', hkey'⟩ := (hi.live_iff hone).mpr ⟨q, _, ht, hthere⟩
      have haddr' : b'.addr = e.membase + 512 * (q : ℤ) + (k * 2 ^ l : ℕ) :=
        congrArg Prod.fst hkey'
      exact hno b' hb' (by omega)

theorem Inv.mistaken_of_passes (hi : Inv c s abs) (hone : abs.pairs = [(ext, segs)])
    (ht : (q, t) ∈ place Seg.pages 0 segs) (hpass : Passes ext.membase a (q, t)) :
    Mistaken s a := by
  have hold := hi.holds (ext, segs) (by simp [hone])
  have hv := hold.valid t (mem_of_place ht)
  cases t with
  | free m => exact hpass.elim
  | multi m =>
    obtain ⟨hlow, hhigh⟩ := hpass
    have hm : 0 < m := hv
    obtain ⟨b, hb, hkey⟩ := (hi.live_iff hone).mpr ⟨q, _, ht, List.mem_singleton_self _⟩
    have haddr : b.addr = ext.membase + 512 * (q : ℤ) := congrArg Prod.fst hkey
    have hsize : b.key.2 = 512 * m := congrArg Prod.snd hkey
    exact .inl ⟨b, hb, by omega, by omega, by omega⟩
  | bucket l map =>
    obtain ⟨k, hk, hidle, rfl⟩ := hpass
    obtain ⟨hbucketed, -, hbusy⟩ := hv
    obtain ⟨k₀, hk₀⟩ := List.exists_mem_of_ne_nil _ hbusy
    obtain ⟨b, hb, hkey⟩ := (hi.live_iff hone).mpr ⟨q, _, ht, List.mem_map.mpr ⟨k₀, hk₀, rfl⟩⟩
    have haddr : b.addr = ext.membase + 512 * (q : ℤ) + (k₀ * 2 ^ l : ℕ) := congrArg Prod.fst hkey
    have hsize : b.key.2 = 2 ^ l := congrArg Prod.snd hkey
    have hlt : 2 ^ l < 512 := Nat.pow_lt_pow_right (by decide) hbucketed.2
    have hpos : 0 < 2 ^ l := Nat.two_pow_pos l
    have hslot := slot_bounds hbucketed hk
    have hslot₀ := slot_bounds hbucketed (mem_busy.mp hk₀).1
    refine .inr ⟨ext, ?_, b, hb, by omega, by omega, ?_, fun b' hb' heq => ?_⟩
    · rw [hi.extents, hone]
      exact List.mem_cons_self
    · have hdvd : 2 ^ l ∣ 512 * q :=
        (pow_dvd_pow 2 (show l ≤ 9 from hbucketed.2.le)).mul_right q
      have hsum : ext.membase + 512 * (q : ℤ) + (k * 2 ^ l : ℕ) - ext.membase =
          ((512 * q + k * 2 ^ l : ℕ) : ℤ) := by
        push_cast
        ring
      rw [hsize, hsum]
      exact Int.emod_eq_zero_of_dvd
        (Int.natCast_dvd_natCast.mpr (dvd_add hdvd (Dvd.intro_left k rfl)))
    · obtain ⟨q', t', ht', hblock⟩ := (hi.live_iff hone).mp ⟨b', hb', rfl⟩
      rw [Block.key, heq] at hblock
      obtain ⟨h₁, h₂, -⟩ := (hold.valid t' (mem_of_place ht')).block_page hblock
      have hsame := place_eq (p := q) ht ht' (show q ≤ q ∧ q < q + 1 by omega)
        (show q' ≤ q ∧ q < q' + t'.pages by omega)
      obtain ⟨rfl, rfl⟩ := Prod.mk.inj hsame
      obtain ⟨k', hk', hkey'⟩ := List.mem_map.mp hblock
      have hmul : k' * 2 ^ l = k * 2 ^ l := by
        have := congrArg Prod.fst hkey'
        simp only at this
        omega
      obtain rfl := Nat.eq_of_mul_eq_mul_right hpos hmul
      exact hidle hk'

theorem pageIsValid_not {pg : ℕ} (hc : c.debug = true) (hp : ext.HasPage pg)
    (htype : (ext.pagemap pg).type = pageFree ∨ (ext.pagemap pg).type = pageCont) :
    pageIsValid c ext pg = .ok false := by
  have hboth : decide ((ext.pagemap pg).type ≠ pageFree ∧ (ext.pagemap pg).type ≠ pageCont) =
      false := decide_eq_false fun hne => htype.elim hne.1 hne.2
  simp only [pageIsValid, hc, if_true, entry_eq hp, ok_bind, hboth]
  rfl

/-- A page that is free or inside a block is not valid. -/
theorem free_invalid {pg : ℕ} (hc : c.debug = true) {j : ℕ}
    (hfind : findExtent a h.extents = some (j, ext)) (hpg : (a - ext.membase).toNat / 512 = pg)
    (hp : ext.HasPage pg)
    (htype : (ext.pagemap pg).type = pageFree ∨ (ext.pagemap pg).type = pageCont) :
    evlFreeBlockUnlocked c h a = .ok (h, -einval) := by
  have hvalid := pageIsValid_not hc hp htype
  simp only [evlFreeBlockUnlocked, hfind, hpg, hvalid, ok_bind]
  rfl

/-- Only the page counts for a large block. -/
theorem free_samePage {pg j : ℕ} {a' : ℤ} (hfind : findExtent a h.extents = some (j, ext))
    (hfind' : findExtent a' h.extents = some (j, ext)) (hpg : (a - ext.membase).toNat / 512 = pg)
    (hpg' : (a' - ext.membase).toNat / 512 = pg) (hp : ext.HasPage pg)
    (htype : (ext.pagemap pg).type = pageList) :
    evlFreeBlockUnlocked c h a = evlFreeBlockUnlocked c h a' := by
  simp only [evlFreeBlockUnlocked, hfind, hfind', hpg, hpg', entry_eq hp, ok_bind, htype, if_true]

/-- The offset in a bucket page must be one of a slot. -/
theorem free_misaligned {pg j : ℕ} (hb : Bucketed l)
    (hfind : findExtent a h.extents = some (j, ext)) (hpg : (a - ext.membase).toNat / 512 = pg)
    (hp : ext.HasPage pg) (htype : (ext.pagemap pg).type = l)
    (hoff : (a - ext.membase).toNat % 512 % 2 ^ l ≠ 0) :
    evlFreeBlockUnlocked c h a = .ok (h, -einval) := by
  have hvalid : pageIsValid c ext pg = .ok true := pageIsValid_bucket hb hp htype
  have hlist := hb.ne_pageList
  have hassert : AvlTree.assert c.debug (2 ^ l < 512) = .ok () := by
    have hlt : 2 ^ l < 512 := Nat.pow_lt_pow_right (by decide) hb.2
    simp [AvlTree.assert, hlt]
  simp only [evlFreeBlockUnlocked, hfind, hpg, hvalid, ok_bind, if_true, entry_eq hp, htype, hlist,
    if_false, Nat.one_shiftLeft, hassert, hoff, ne_eq, not_false_eq_true]
  rfl

/-- An aligned offset in a bucket page is the one of a slot. -/
theorem exists_slot {base : ℤ} {p : ℕ} (hl : Bucketed l)
    (ha : base + 512 * (p : ℤ) ≤ a ∧ a < base + 512 * (p : ℤ) + 512)
    (hoff : (a - base).toNat % 512 % 2 ^ l = 0) :
    ∃ k < slots l, a = base + 512 * (p : ℤ) + (k * 2 ^ l : ℕ) := by
  obtain ⟨k, hk⟩ := Nat.dvd_of_mod_eq_zero hoff
  rw [Nat.mul_comm (2 ^ l) k] at hk
  refine ⟨k, ?_, by omega⟩
  apply Nat.lt_of_mul_lt_mul_right (a := 2 ^ l)
  rw [slots_mul hl]
  omega

/-- The addresses in a page of a tile are found in the extent, and in that page. -/
theorem Inv.lookup_tile (hi : Inv c s abs) (hone : abs.pairs = [(ext, segs)]) {p : ℕ}
    (ht : (q, t) ∈ place Seg.pages 0 segs) (hp : q ≤ p ∧ p < q + t.pages) :
    ext.HasPage p ∧ ∀ a', ext.membase + 512 * (p : ℤ) ≤ a' ∧ a' < ext.membase + 512 * (p : ℤ) + 512 →
      findExtent a' (s.heap.withUses []).extents = some (0, ext) ∧
        (a' - ext.membase).toNat / 512 = p := by
  have hi₀ : HeapInv c (s.heap.withUses []) abs := hi.congr rfl rfl rfl
  have hj : abs.pairs[0]? = some (ext, segs) := by rw [hone]; rfl
  have hold : Holds c ext segs := hi.holds (ext, segs) (List.mem_of_getElem? hj)
  have hbounds := place_bounds ht
  have hlimit := hold.limit
  have htotal := hold.total
  refine ⟨⟨by omega, by omega⟩, ?_⟩
  intro a' ha'
  exact ⟨hi₀.findExtent hj ⟨by omega, by omega⟩, by omega⟩

/-- With page marking, what is no live block is refused unless it passes for one. -/
theorem Inv.refused_iff_passes (hc : c.debug = true) (hi : Inv c s abs)
    (hone : abs.pairs = [(ext, segs)]) {p : ℕ} (ht : (q, t) ∈ place Seg.pages 0 segs)
    (hp : q ≤ p ∧ p < q + t.pages)
    (ha : ext.membase + 512 * (p : ℤ) ≤ a ∧ a < ext.membase + 512 * (p : ℤ) + 512)
    (hno : ∀ b ∈ s.live, b.addr ≠ a) :
    evlFreeBlockUnlocked c (s.heap.withUses []) a = .ok (s.heap.withUses [], -einval) ↔
      ¬ Passes ext.membase a (q, t) := by
  have hj : abs.pairs[0]? = some (ext, segs) := by rw [hone]; rfl
  have hold : Holds c ext segs := hi.holds (ext, segs) (List.mem_of_getElem? hj)
  obtain ⟨hhas, hlookup⟩ := hi.lookup_tile hone ht hp
  obtain ⟨hfind, hpage⟩ := hlookup a ha
  have hdescribed := hold.described _ ht
  have hv := hold.valid t (mem_of_place ht)
  cases t with
  | free m =>
    refine iff_of_true (free_invalid hc hfind hpage hhas (.inl ?_)) id
    exact hdescribed hc p hp.1 hp.2
  | multi m =>
    obtain ⟨htype, -, hcont, -⟩ := hdescribed
    rcases Nat.lt_or_ge q p with hlt | hge
    · refine iff_of_true (free_invalid hc hfind hpage hhas (.inr ?_)) ?_
      · exact hcont hc p hlt hp.2
      · rintro ⟨-, hhigh⟩
        omega
    · obtain rfl : p = q := by omega
      have hm : 0 < m := hv
      obtain ⟨b, hb, hkey⟩ := (hi.live_iff hone).mpr ⟨p, _, ht, List.mem_singleton_self _⟩
      have haddr : b.addr = ext.membase + 512 * (p : ℤ) := congrArg Prod.fst hkey
      have hne := hno b hb
      obtain ⟨hfind', hpage'⟩ := hlookup b.addr ⟨by omega, by omega⟩
      have hpass : Passes ext.membase a (p, .multi m) := ⟨by omega, by omega⟩
      refine iff_of_false (fun hrefused => ?_) (not_not.mpr hpass)
      obtain ⟨h', -, hfree, -⟩ := hi.free hb
      rw [free_samePage hfind hfind' hpage hpage' hhas htype, hfree] at hrefused
      cases congrArg Prod.snd (Except.ok.inj hrefused)
  | bucket l map =>
    obtain ⟨htype, -, -⟩ := hdescribed
    obtain ⟨hbucketed, -, -⟩ := hv
    have hpos : 0 < 2 ^ l := Nat.two_pow_pos l
    obtain rfl : p = q := by
      have := hp.2
      simp only [Seg.pages] at this
      omega
    by_cases hoff : (a - ext.membase).toNat % 512 % 2 ^ l = 0
    · obtain ⟨k, hslot, hka⟩ := exists_slot hbucketed ha hoff
      have hidle : k ∉ busy l map := by
        intro hbusy
        obtain ⟨b, hb, hkey⟩ := (hi.live_iff hone).mpr ⟨p, _, ht, List.mem_map.mpr ⟨k, hbusy, rfl⟩⟩
        exact hno b hb ((congrArg Prod.fst hkey).trans hka.symm)
      refine iff_of_false (fun hrefused => ?_) (not_not.mpr ⟨k, hslot, hidle, hka⟩)
      obtain ⟨A, B, rfl, hpA⟩ := mem_place.mp ht
      rw [Nat.zero_add] at hpA
      have hi₀ : HeapInv c (s.heap.withUses []) abs := hi.congr rfl rfl rfl
      obtain ⟨P, Q, ho⟩ := exists_onPage hi₀ hj
      rw [hka, hpA, free_unfold ho hslot] at hrefused
      obtain ⟨x, -, hx⟩ := bind_eq_ok.mp hrefused
      cases congrArg Prod.snd (Except.ok.inj hx)
    · refine iff_of_true (free_misaligned hbucketed hfind hpage hhas htype hoff) ?_
      rintro ⟨k, -, -, hka⟩
      have hk : (a - ext.membase).toNat % 512 = k * 2 ^ l := by omega
      exact hoff (by rw [hk, Nat.mul_mod_left])

/-- In every run over one extent whose requests the heap handles, a free is checked in full exactly
if the pointer does not pass for a live block. -/
theorem checked_iff (hc : c.debug = true)
    (h : Reach (fun s op s' => Single c s op ∧ Step c s op s') (Initial c) s) (a : ℤ) :
    Checked c s a ↔ ¬ Mistaken s a := by
  obtain ⟨abs, hi, hlen⟩ := reach_single h
  obtain ⟨⟨ext, segs⟩, hone⟩ := List.length_eq_one_iff.mp hlen
  have hexts : s.heap.extents = [ext] := by rw [hi.extents, hone, List.map_singleton]
  by_cases hlive : ∃ b ∈ s.live, b.addr = a
  · obtain ⟨b, hb, rfl⟩ := hlive
    obtain ⟨h', -, hrun, -⟩ := hi.free hb
    refine iff_of_true ⟨h', 0, hrun, iff_of_true rfl ⟨b, hb, rfl⟩, fun hne => absurd rfl hne⟩ ?_
    rintro (⟨b', hb', hlarge, hlow, hhigh⟩ | ⟨-, -, -, -, -, -, -, hno⟩)
    · have hne : b' ≠ b := fun heq => hlow.ne (by rw [heq])
      have hsymm : Std.Symm fun x y : Block => Apart x.key y.key := ⟨fun _ _ => Apart.symm⟩
      rcases List.Pairwise.forall hi.live_apart hb' hb hne with hlt | hlt
      · have h₁ : b'.addr + (b'.key.2 : ℤ) ≤ b.addr := hlt
        omega
      · have h₁ : b.addr + (b.key.2 : ℤ) ≤ b'.addr := hlt
        omega
    · exact hno b hb rfl
  have hno : ∀ b ∈ s.live, b.addr ≠ a := fun b hb heq => hlive ⟨b, hb, heq⟩
  have hrefused : Checked c s a ↔
      evlFreeBlockUnlocked c (s.heap.withUses []) a = .ok (s.heap.withUses [], -einval) := by
    constructor
    · rintro ⟨h', r, hrun, hzero, hsame⟩
      obtain ⟨rfl, rfl⟩ := hsame fun hr => hlive (hzero.mp hr)
      exact hrun
    · intro hrun
      exact ⟨_, _, hrun, iff_of_false (by decide) hlive, fun _ => ⟨rfl, rfl⟩⟩
  rw [hrefused]
  have hold : Holds c ext segs := hi.holds (ext, segs) (by simp [hone])
  have hlimit := hold.limit
  have htotal := hold.total
  by_cases hin : ext.membase ≤ a ∧ a < ext.memlim
  · obtain ⟨⟨q, t⟩, ht, hp⟩ := exists_place (x := (a - ext.membase).toNat / 512) (Nat.zero_le _)
      (show (a - ext.membase).toNat / 512 < 0 + cover Seg.pages segs by omega)
    have ha : ext.membase + 512 * (((a - ext.membase).toNat / 512 : ℕ) : ℤ) ≤ a ∧
        a < ext.membase + 512 * (((a - ext.membase).toNat / 512 : ℕ) : ℤ) + 512 := by omega
    rw [hi.refused_iff_passes hc hone ht hp ha hno]
    exact not_congr ⟨hi.mistaken_of_passes hone ht, hi.passes_of_mistaken hone ht hp ha⟩
  · have hnone : findExtent a (s.heap.withUses []).extents = none := by
      have : (s.heap.withUses []).extents = [ext] := hexts
      rw [this, findExtent, if_neg hin]
      rfl
    refine iff_of_true (by rw [evlFreeBlockUnlocked, hnone]; rfl) ?_
    have hinside {b : Block} (hb : b ∈ s.live) :
        ext.membase ≤ b.addr ∧ b.addr + b.key.2 ≤ ext.memlim := by
      obtain ⟨q, t, ht, hblock⟩ := (hi.live_iff hone).mp ⟨b, hb, rfl⟩
      exact hold.inside (.inl (List.mem_flatMap.mpr ⟨_, ht, hblock⟩))
    rintro (⟨b, hb, hlarge, hlow, hhigh⟩ | ⟨e, he, b, hb, hsmall, hpage, -⟩)
    · have := hinside hb
      omega
    · rw [hexts] at he
      obtain rfl := List.mem_singleton.mp he
      have := hinside hb
      have hpos := (hi.size_le hb).1.trans_le (hi.size_le hb).2
      omega

/-- An address inside a live block of 16 bytes is refused. -/
theorem checked_iff_inside : ∃ s, (newHeap ⟨true, true⟩ 2 >>= fun s =>
      runs (exec ⟨true, true⟩) s [.alloc 16]) = some s ∧ Checked ⟨true, true⟩ s 4808 := by
  have hrun : ((newHeap ⟨true, true⟩ 2 >>= fun s =>
      runs (exec ⟨true, true⟩) s [.alloc 16]).map fun s =>
        (s.live, s.heap.extents.map HeapExtent.membase)) = some ([⟨4800, 16⟩], [4288]) := by
    decide
  obtain ⟨s, hs, hval⟩ := Option.map_eq_some_iff.mp hrun
  obtain ⟨hlive, hbase⟩ := Prod.mk.inj hval
  have hsmall : ∀ op ∈ [Op.alloc 16], op.small = true := by decide
  have hreach : Reach (fun s op s' => Single ⟨true, true⟩ s op ∧ Step ⟨true, true⟩ s op s')
      (Initial ⟨true, true⟩) s :=
    reach_replay hs (fun _ hs₀ => newHeap_initial hs₀ (by decide))
      fun op hop _ _ h => ⟨single_of_small rfl (hsmall op hop), h⟩
  refine ⟨s, hs, (checked_iff (c := ⟨true, true⟩) rfl hreach 4808).mpr ?_⟩
  have hkey : Block.key ⟨4800, 16⟩ = (4800, 16) := by decide
  rintro (⟨b, hb, hlarge, -⟩ | ⟨e, he, b, hb, -, -, hmod, -⟩)
  · rw [hlive] at hb
    obtain rfl := List.mem_singleton.mp hb
    rw [hkey] at hlarge
    omega
  · rw [hlive] at hb
    obtain rfl := List.mem_singleton.mp hb
    have hmem : e.membase ∈ s.heap.extents.map HeapExtent.membase := List.mem_map_of_mem he
    rw [hbase] at hmem
    rw [List.mem_singleton.mp hmem, hkey] at hmod
    revert hmod
    decide

/-- A free of the middle of the first page of a two-page block releases the block. -/
theorem not_checked_interior : ¬ ∀ (c : Cfg) (s : State), c.debug = true →
    Reach (fun s op s' => Step c s op s') (Initial c) s → ∀ a, Checked c s a := by
  intro h
  have hrun : ((newHeap ⟨true, false⟩ 2 >>= fun s =>
      runs (exec ⟨true, false⟩) s [.alloc 600]).map fun s => (s.live,
        (evlFreeBlockUnlocked ⟨true, false⟩ (s.heap.withUses []) 4304).toOption.map Prod.snd)) =
        some ([⟨4288, 600⟩], some 0) := by decide
  obtain ⟨s, hs, hval⟩ := Option.map_eq_some_iff.mp hrun
  obtain ⟨hlive, hzero⟩ := Prod.mk.inj hval
  have hreach : Reach (fun s op s' => Step ⟨true, false⟩ s op s') (Initial ⟨true, false⟩) s :=
    reach_replay hs (fun _ hs₀ => newHeap_initial hs₀ (by decide)) fun _ _ _ _ h => h
  obtain ⟨h', r, hfree, hiff, -⟩ := h _ _ rfl hreach 4304
  rw [hfree] at hzero
  obtain ⟨b, hb, haddr⟩ := hiff.mp (Option.some.inj hzero)
  rw [hlive] at hb
  obtain rfl := List.mem_singleton.mp hb
  cases haddr

end Frees

end Libevl.Heap
