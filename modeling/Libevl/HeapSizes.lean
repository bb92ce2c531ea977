import Libevl.HeapChecks

/-!
# Sizes, page numbers and addresses

An extent has a descriptor, one entry for each page, and the pages behind them. The
size of the whole area determines how many pages there are, in integers of the
width of a `size_t`; the address of a page is computed from an `int`.
-/
namespace Libevl.Heap
open AvlTree Tiling

section Addresses

variable {c : Cfg} {ext : HeapExtent} {h h' : EvlHeap} {rest : List HeapExtent}
  {bsize l j b pg : ℕ} {a : ℤ}

/-- The address of the block `b` in the page `pg`, as `evl_alloc_block_unlocked` computes it. -/
def blockAddr (c : Cfg) (ext : HeapExtent) (pg : ℤ) (l b : ℕ) : ℤ :=
  ext.membase + c.int (pg * 512) + (b <<< l : ℕ)

theorem bucketScan_addr (hhead : h.bucket (l - 4) = .ok (pg : ℤ)) (hpg : ext.HasPage pg)
    (hrun : bucketScan c bsize l h j (ext :: rest) = .ok (h', some a)) :
    a = blockAddr c ext pg l (tzcount (~~~ (ext.pagemap pg).map)) := by
  have hneg : ¬ (pg : ℤ) < 0 := by omega
  simp only [bucketScan, hhead, ok_bind, hneg, if_false, entry_eq hpg] at hrun
  split_ifs at hrun with hfull hlast
  · cases hrun
  · simp only [HeapExtent.setMap, HeapExtent.modify, entry_eq hpg, ok_bind, pure_bind] at hrun
    obtain ⟨x, -, hret⟩ := bind_eq_ok.mp hrun
    cases hret
    rfl
  · simp only [HeapExtent.setMap, HeapExtent.modify, entry_eq hpg, ok_bind, pure_bind] at hrun
    cases hrun
    rfl

/-- Any other block starts on a page. -/
theorem addFreeRange_addr (hrun : addFreeRange c h bsize l = .ok (h', some a)) :
    ∃ (ext : HeapExtent) (pg : ℤ), a = pagenrToAddr c ext pg := by
  obtain ⟨⟨exts, found⟩, -, hrun⟩ := bind_eq_ok.mp hrun
  cases found with
  | none => cases hrun
  | some x =>
    simp only at hrun
    split at hrun
    · cases hrun
    · obtain ⟨y, -, hret⟩ := bind_eq_ok.mp hrun
      cases hret
      exact ⟨_, _, rfl⟩

/-- The page `pg` has the number `pg`, and so do the links to it and the blocks in it. -/
structure PageExact (c : Cfg) (ext : HeapExtent) (pg : ℕ) : Prop where
  addr : pagenrToAddr c ext pg = ext.membase + 512 * pg
  number : addrToPagenr c ext (pagenrToAddr c ext pg) = pg
  links : ∀ e : HeapPgentry, (e.setPrev pg).prev = pg ∧ (e.setNext pg).next = pg
  blocks : ∀ l b, Bucketed l → b < slots l → ext.membase + 512 * pg ≤ blockAddr c ext pg l b ∧
    blockAddr c ext pg l b + (2 ^ l : ℕ) ≤ ext.membase + 512 * (pg + 1)
  inside : ext.membase ≤ pagenrToAddr c ext pg ∧ pagenrToAddr c ext pg < ext.memlim
  blocks_inside : ∀ l b, Bucketed l → b < slots l →
    ext.membase ≤ blockAddr c ext pg l b ∧ blockAddr c ext pg l b < ext.memlim

theorem pageExact_of_lt (hlim : ext.memlim = ext.membase + 512 * ext.nrpages)
    (hpg : ext.HasPage pg) (hlt : pg < 2 ^ 22) : PageExact c ext pg := by
  have hint : c.int ((pg : ℤ) * 512) = pg * 512 := int_of_lt (by omega) (by omega)
  have haddr : pagenrToAddr c ext pg = ext.membase + 512 * pg := by
    rw [pagenrToAddr, hint]
    ring
  have hpages := hpg.2
  have hblocks : ∀ l b, Bucketed l → b < slots l →
      ext.membase + 512 * pg ≤ blockAddr c ext pg l b ∧
        blockAddr c ext pg l b + (2 ^ l : ℕ) ≤ ext.membase + 512 * (pg + 1) := by
    intro l b hl hb
    have hslot := slot_bounds hl hb
    rw [blockAddr, hint, Nat.shiftLeft_eq]
    constructor <;> omega
  constructor
  · exact haddr
  · rw [haddr, addrToPagenr, show ext.membase + 512 * (pg : ℤ) - ext.membase = 512 * pg by ring,
      Int.mul_ediv_cancel_left _ (by decide)]
    exact int_of_lt (by omega) (by omega)
  · intro e
    have hmod : (pg : ℤ) % 2 ^ 23 = pg := Int.emod_eq_of_lt (by omega) (by omega)
    exact ⟨hmod, hmod⟩
  · exact hblocks
  · rw [haddr]
    constructor <;> omega
  · intro l b hl hb
    obtain ⟨h₁, h₂⟩ := hblocks l b hl hb
    have := Nat.two_pow_pos l
    constructor <;> omega

theorem addExtent_holds {raw : HeapExtent} {mem : ℤ} {size user : ℕ} (hsize : size < 2 ^ 64)
    (hrun : addExtent c raw mem size = .ok (some (ext, user))) :
    ∃ n, user = 512 * n ∧ Holds c ext [.free n] := by
  by_cases h : Accepted size
  · obtain ⟨ext', n, hrun', -, -, -, -, hold⟩ := addExtent_accepted (c := c) raw mem hsize h
    rw [hrun] at hrun'
    cases hrun'
    exact ⟨n, rfl, hold⟩
  · rw [addExtent_refused raw mem h] at hrun
    cases hrun

/-- The address of the page 2^22 is 2^31 below the pool. -/
theorem pagenrToAddr_far {debug : Bool} (hpg : 2 ^ 22 ≤ pg) (hlt : pg < 2 ^ 23) :
    pagenrToAddr ⟨debug, false⟩ ext pg = ext.membase + 512 * pg - 2 ^ 32 := by
  have hint : (⟨debug, false⟩ : Cfg).int ((pg : ℤ) * 512) = pg * 512 - 2 ^ 32 := by
    rw [Cfg.int, if_neg Bool.false_ne_true, Int.bmod_eq_iff (by decide)]
    refine ⟨by omega, by omega, -1, ?_⟩
    ring
  rw [pagenrToAddr, hint]
  ring

/-- The numbers and addresses of an accepted extent are exact for the first 2^22 pages, and for no
other page. -/
theorem pages_exact {debug : Bool} {raw : HeapExtent} {mem : ℤ} {size user pg : ℕ}
    (hsize : size < 2 ^ 64)
    (hrun : addExtent ⟨debug, false⟩ raw mem size = .ok (some (ext, user))) (hpg : ext.HasPage pg) :
    PageExact ⟨debug, false⟩ ext pg ↔ pg < 2 ^ 22 := by
  obtain ⟨n, -, hold⟩ := addExtent_holds hsize hrun
  have hbound := hold.bound
  have hpages := hpg.2
  constructor
  · intro h
    by_contra hfar
    have haddr := h.addr
    rw [pagenrToAddr_far (by omega) (by omega)] at haddr
    omega
  · intro hlt
    exact pageExact_of_lt hold.limit hpg hlt

theorem pages_exact_last : ∃ ext, addExtent ⟨true, false⟩ blank 4096 (rawSize (2 ^ 22)) =
    .ok (some (ext, 512 * 2 ^ 22)) ∧ PageExact ⟨true, false⟩ ext (2 ^ 22 - 1) := by
  have haccepted : Accepted (rawSize (2 ^ 22)) := by unfold Accepted; decide
  obtain ⟨ext, n, hrun, hn, -, -, -, hold⟩ :=
    addExtent_accepted (c := ⟨true, false⟩) blank 4096 (by decide) haccepted
  obtain rfl : n = 2 ^ 22 := by
    have : sizeSub (rawSize (2 ^ 22)) (overheadOf (rawSize (2 ^ 22))) = 512 * 2 ^ 22 := by decide
    omega
  have hpages : ext.nrpages = 2 ^ 22 := hold.total
  have hpage : ext.HasPage (2 ^ 22 - 1) := ⟨by decide, by rw [hpages]; decide⟩
  exact ⟨ext, hrun, (pages_exact (by decide) hrun hpage).mpr (by decide)⟩

/-- In an extent of 2^22 + 1 pages, the last page has an address below the pool. -/
theorem not_pages_exact : ¬ ∀ (c : Cfg) (raw : HeapExtent) (mem : ℤ) (size : ℕ) (ext : HeapExtent)
    (user pg : ℕ), c.exact = false → Area mem size →
      addExtent c raw mem size = .ok (some (ext, user)) → ext.HasPage pg → PageExact c ext pg := by
  intro h
  have haccepted : Accepted (rawSize (2 ^ 22 + 1)) := by unfold Accepted; decide
  obtain ⟨ext, n, hrun, hn, -, -, -, hold⟩ :=
    addExtent_accepted (c := ⟨true, false⟩) blank 4096 (by decide) haccepted
  obtain rfl : n = 2 ^ 22 + 1 := by
    have : sizeSub (rawSize (2 ^ 22 + 1)) (overheadOf (rawSize (2 ^ 22 + 1))) = 512 * (2 ^ 22 + 1) := by
      decide
    omega
  have hpages : ext.nrpages = (2 ^ 22 + 1 : ℕ) := hold.total
  have hexact := h ⟨true, false⟩ blank 4096 _ ext _ (2 ^ 22) rfl (by unfold Area; decide) hrun
    ⟨by omega, by omega⟩
  have haddr := hexact.addr
  rw [pagenrToAddr_far (by decide) (by decide)] at haddr
  omega

end Addresses

section RawSize

variable {c : Cfg}

/-- `__align_to` with `EVL_HEAP_MIN_ALIGN`, an `unsigned int`: its mask clears the upper half. -/
def alignMin (size : ℕ) : ℕ := sizeAdd size 15 &&& 0xFFFFFFF0

theorem and_mask (x : ℕ) : x &&& 0xFFFFFFF0 = x % 2 ^ 32 / 16 * 16 := by
  have hmask : 0xFFFFFFF0 = (2 ^ 28 - 1) <<< 4 := by decide
  have hdiv : x % 2 ^ 32 / 16 * 16 = (x >>> 4 % 2 ^ 28) <<< 4 := by
    rw [Nat.shiftRight_eq_div_pow, Nat.shiftLeft_eq]
    omega
  rw [hmask, hdiv, ← Nat.and_two_pow_sub_one_eq_mod]
  apply Nat.eq_of_testBit_eq
  intro i
  simp only [Nat.testBit_and, Nat.testBit_shiftLeft, Nat.testBit_shiftRight]
  by_cases hi : 4 ≤ i
  · simp [hi]
  · simp [hi]

theorem alignMin_eq {size : ℕ} (h : size + 15 < 2 ^ 32) : alignMin size = alignTo size 16 := by
  rw [alignMin, and_mask, alignTo, sizeAdd_of_lt (by omega)]
  omega

/-- What `__EVL_HEAP_RAW_SIZE` adds to the size of the pages. -/
def mapOverhead (size : ℕ) : ℕ := alignMin (sizeAdd 160 ((size >>> 9) * 12))

/-- `EVL_HEAP_RAW_SIZE`. -/
def evlHeapRawSize (userSize : ℕ) : ℕ :=
  sizeAdd (alignTo userSize 512) (mapOverhead (alignTo userSize 512))

/-- The division finds back the overhead of `n` pages. -/
theorem overheadOf_pages {n : ℕ} (hn : n < 2 ^ 23) :
    overheadOf (512 * n + alignTo (160 + 12 * n) 16) = alignTo (160 + 12 * n) 16 := by
  have hover : alignTo (160 + 12 * n) 16 = (160 + 12 * n + 15) / 16 * 16 := by
    rw [alignTo_eq (by omega)]
    omega
  have hsum : sizeAdd ((512 * n + alignTo (160 + 12 * n) 16) * 12) (160 * 512) =
      (512 * n + alignTo (160 + 12 * n) 16) * 12 + 160 * 512 := sizeAdd_of_lt (by omega)
  -- The slack of the first alignment is at most 12, too little for another step of 524.
  have hdiv : ((512 * n + alignTo (160 + 12 * n) 16) * 12 + 160 * 512) / (512 + 12) = 160 + 12 * n := by
    omega
  rw [overheadOf, hsum, hdiv]

theorem alignTo_multiple (size : ℕ) : ∃ n, alignTo size 512 = 512 * n := by
  refine ⟨sizeAdd size 511 / 512, ?_⟩
  change sizeAdd size 511 - sizeAdd size 511 % 512 = _
  omega

theorem rawSize_pages {n : ℕ} (hn : n < 2 ^ 23) :
    mapOverhead (512 * n) = alignTo (160 + 12 * n) 16 ∧
      sizeAdd (512 * n) (mapOverhead (512 * n)) = 512 * n + alignTo (160 + 12 * n) 16 := by
  have hshift : (512 * n) >>> 9 = n := by
    rw [Nat.shiftRight_eq_div_pow]
    omega
  have hmap : mapOverhead (512 * n) = alignTo (160 + 12 * n) 16 := by
    rw [mapOverhead, hshift, sizeAdd_of_lt (by omega), Nat.mul_comm n 12, alignMin_eq (by omega)]
  have hle : alignTo (160 + 12 * n) 16 ≤ 175 + 12 * n := by
    rw [alignTo_eq (by omega)]
    omega
  refine ⟨hmap, ?_⟩
  rw [hmap, sizeAdd_of_lt (by omega)]

/-- `EVL_HEAP_RAW_SIZE` and `add_extent` agree on the overhead, for every user size that an extent
may have. -/
theorem addExtent_rawSize (raw : HeapExtent) (mem : ℤ) (userSize : ℕ)
    (hmin : 512 ≤ alignTo userSize 512) (hmax : alignTo userSize 512 ≤ 4294967295 - 512 + 1) :
    overheadOf (evlHeapRawSize userSize) = mapOverhead (alignTo userSize 512) ∧
      ∃ ext, addExtent c raw mem (evlHeapRawSize userSize) =
        .ok (some (ext, alignTo userSize 512)) := by
  obtain ⟨n, hn⟩ := alignTo_multiple userSize
  obtain ⟨hmap, hraw⟩ := rawSize_pages (n := n) (by omega)
  rw [evlHeapRawSize, hn, hraw, hmap, overheadOf_pages (by omega)]
  refine ⟨rfl, ?_⟩
  have hle : alignTo (160 + 12 * n) 16 ≤ 175 + 12 * n := by
    rw [alignTo_eq (by omega)]
    omega
  have huser : sizeSub (512 * n + alignTo (160 + 12 * n) 16)
      (overheadOf (512 * n + alignTo (160 + 12 * n) 16)) = 512 * n := by
    rw [overheadOf_pages (by omega), sizeSub_of_le (by omega) (by omega)]
    omega
  obtain ⟨ext, m, hrun, hm, -⟩ := addExtent_accepted (c := c) raw mem
    (show 512 * n + alignTo (160 + 12 * n) 16 < 2 ^ 64 by omega)
    ⟨by rw [huser]; omega, by rw [huser]; omega, by rw [huser]; omega⟩
  rw [huser] at hm
  exact ⟨ext, by rw [hrun, hm]⟩

theorem addExtent_rawSize_page : alignTo 1 512 = 512 ∧
    overheadOf (evlHeapRawSize 1) = mapOverhead (alignTo 1 512) ∧
      ∃ ext, addExtent ⟨true, false⟩ blank 4096 (evlHeapRawSize 1) =
        .ok (some (ext, alignTo 1 512)) :=
  ⟨by decide, addExtent_rawSize blank 4096 1 (by decide) (by decide)⟩

end RawSize

section Layout

/-- The width of a `size_t`, which is that of a pointer. -/
inductive Target where
  | bits32
  | bits64
  deriving DecidableEq, Repr

def Target.bits : Target → ℕ
  | .bits32 => 32
  | .bits64 => 64

/-- `sizeof(struct evl_heap_extent)`: a list head, two pointers, and twice seven pointers (a bit
field filling one) and two `unsigned int`. -/
def Target.extentSize (t : Target) : ℕ := 18 * (t.bits / 8) + 16

/-- What `add_extent` lays out in an area. -/
structure ExtentLayout where
  membase : ℤ
  memlim : ℤ
  userSize : ℕ
  nrpages : ℕ
  deriving DecidableEq, Repr

/-- The overhead that `add_extent` computes, 12 being `EVL_HEAP_PGMAP_BYTES`. -/
def Target.overhead (t : Target) (size : ℕ) : ℕ :=
  ((size * 12 + t.extentSize * 512) % 2 ^ t.bits / (512 + 12) + 15) % 2 ^ t.bits &&& 0xFFFFFFF0

/-- `size - overhead` of `add_extent`. -/
def Target.userSize (t : Target) (size : ℕ) : ℕ :=
  (size + (2 ^ t.bits - t.overhead size)) % 2 ^ t.bits

/-- The layout of an area by `add_extent`; none is `-EINVAL`. -/
def extentLayout (t : Target) (mem : ℤ) (size : ℕ) : Option ExtentLayout :=
  if t.userSize size % 512 ≠ 0 then none
  else if t.userSize size < 512 ∨ 4294967295 - 512 + 1 < t.userSize size then none
  else some ⟨mem + t.overhead size, mem + size, t.userSize size, t.userSize size >>> 9⟩

/-- The descriptor and the page map end below the pages, and these fill the rest of the area. -/
structure Separate (t : Target) (mem : ℤ) (size : ℕ) (e : ExtentLayout) : Prop where
  metadata : mem + (t.extentSize + e.nrpages * 12 : ℕ) ≤ e.membase
  pages : e.membase + e.userSize = mem + size ∧ e.memlim = mem + size

variable {t : Target} {c : Cfg} {mem : ℤ} {size : ℕ} {e : ExtentLayout}

/-- The sum from which the overhead is computed, as it wraps. -/
def Target.sum (t : Target) (size : ℕ) : ℕ := (size * 12 + t.extentSize * 512) % 2 ^ t.bits

theorem Target.le_two_pow_bits (t : Target) : 2 ^ 32 ≤ 2 ^ t.bits :=
  Nat.pow_le_pow_right (by decide) (by cases t <;> decide)

/-- The overhead is the next multiple of 16, where its upper half is not cut off. -/
theorem overhead_eq (h : t.bits = 32 ∨ size < 2 ^ 33) :
    t.overhead size = (t.sum size / 524 + 15) / 16 * 16 := by
  have hsmall : t.sum size / 524 + 15 < 2 ^ 32 := by
    cases t with
    | bits32 =>
      have : Target.bits32.sum size < 2 ^ 32 := Nat.mod_lt _ (by decide)
      omega
    | bits64 =>
      have hsize : size < 2 ^ 33 := h.resolve_left (by decide)
      have : Target.bits64.sum size ≤ size * 12 + Target.bits64.extentSize * 512 := Nat.mod_le _ _
      have : Target.bits64.extentSize = 160 := rfl
      omega
  change (t.sum size / 524 + 15) % 2 ^ t.bits &&& 0xFFFFFFF0 = _
  rw [and_mask, Nat.mod_eq_of_lt (hsmall.trans_le t.le_two_pow_bits), Nat.mod_eq_of_lt hsmall]

theorem overhead_bounds (t : Target) (size : ℕ) (h : t.bits = 32 ∨ size < 2 ^ 33) :
    t.sum size / 524 ≤ t.overhead size ∧ t.overhead size ≤ t.sum size / 524 + 15 ∧
      16 ∣ t.overhead size := by
  rw [overhead_eq h]
  omega

theorem overhead_lt (t : Target) (size : ℕ) : t.overhead size < 2 ^ 32 := by
  rw [Target.overhead, and_mask]
  omega

/-- Accepted sizes exceed their overhead. -/
theorem layout_bounds (hsize : size < 2 ^ t.bits) (h : extentLayout t mem size = some e) :
    t.overhead size + t.userSize size = size ∧ 512 ∣ t.userSize size ∧ t.userSize size < 2 ^ 32 ∧
      e = ⟨mem + t.overhead size, mem + size, t.userSize size, t.userSize size / 512⟩ := by
  unfold extentLayout at h
  split_ifs at h with hmod hrange
  rw [Nat.shiftRight_eq_div_pow] at h
  refine ⟨?_, by omega, by omega, (Option.some.inj h).symm⟩
  have hover := overhead_lt t size
  have huser : t.userSize size = (size + (2 ^ t.bits - t.overhead size)) % 2 ^ t.bits := rfl
  by_cases hle : t.overhead size ≤ size
  · cases t with
    | bits32 =>
      simp only [Target.bits] at hsize huser
      omega
    | bits64 =>
      simp only [Target.bits] at hsize huser
      omega
  -- What is left wraps to less than one page below the width.
  · exfalso
    cases t with
    | bits32 =>
      have hbounds := overhead_bounds .bits32 size (.inl rfl)
      have hsum : Target.bits32.sum size ≤ size * 12 + 88 * 512 := Nat.mod_le _ _
      simp only [Target.bits] at hsize huser
      omega
    | bits64 =>
      simp only [Target.bits] at hsize huser
      omega

/-- The metadata of an accepted area is apart from its pages if and only if the product and the sum
for the overhead do not wrap. -/
theorem layout_separate (hsize : size < 2 ^ t.bits) (h : extentLayout t mem size = some e) :
    Separate t mem size e ↔ size * 12 + t.extentSize * 512 < 2 ^ t.bits := by
  obtain ⟨htotal, ⟨n, hn⟩, hmax, rfl⟩ := layout_bounds hsize h
  have hlt := overhead_lt t size
  obtain ⟨hlow, hhigh, m, hm⟩ := overhead_bounds t size (.inr (by omega))
  have hpages : t.userSize size / 512 = n := by omega
  have hheader : 4 ∣ t.extentSize := by cases t <;> decide
  obtain ⟨k, hk⟩ := hheader
  constructor
  · intro hsep
    have hmeta := hsep.metadata
    simp only [hpages] at hmeta
    by_contra hwrap
    have hsum : t.sum size + 2 ^ t.bits ≤ size * 12 + t.extentSize * 512 := by
      have hmod : t.sum size = (size * 12 + t.extentSize * 512 - 2 ^ t.bits) % 2 ^ t.bits :=
        Nat.mod_eq_sub_mod (by omega)
      have := Nat.mod_le (size * 12 + t.extentSize * 512 - 2 ^ t.bits) (2 ^ t.bits)
      omega
    have hbits := t.le_two_pow_bits
    omega
  · intro hnowrap
    have hsum : t.sum size = size * 12 + t.extentSize * 512 := Nat.mod_eq_of_lt hnowrap
    have hstep : n * 12 + t.extentSize ≤ t.overhead size + 1 := by omega
    constructor
    · simp only [hpages]
      omega
    · constructor
      · simp only
        omega
      · rfl

theorem layout_separate_page : Separate .bits32 4096 624 ⟨4208, 4720, 512, 1⟩ :=
  (layout_separate (by decide) (by decide)).mpr (by decide)

/-- With 32 bits, the map of an area of 357910544 bytes extends over its first pages. -/
theorem not_layout_separate : ¬ ∀ (t : Target) (mem : ℤ) (size : ℕ) (e : ExtentLayout),
    0 < mem → mem + (size : ℤ) ≤ 2 ^ t.bits → extentLayout t mem size = some e →
      Separate t mem size e := by
  intro h
  have hlayout : extentLayout .bits32 4096 357910544 =
      some ⟨4096 + 16, 4096 + 357910544, 357910528, 699044⟩ := by decide
  have hmeta := (h .bits32 4096 357910544 _ (by decide) (by decide) hlayout).metadata
  revert hmeta
  decide

/-- With 64 bits, `addExtent` lays out the area in this way. -/
theorem addExtent_layout (raw : HeapExtent) (mem : ℤ) (hsize : size < 2 ^ 64) :
    (extentLayout .bits64 mem size = none ∧ addExtent c raw mem size = .ok none) ∨
    ∃ ext, addExtent c raw mem size = .ok (some (ext, Target.bits64.userSize size)) ∧
      extentLayout .bits64 mem size =
        some ⟨ext.membase, ext.memlim, Target.bits64.userSize size, ext.nrpages.toNat⟩ := by
  have hsum : sizeAdd (size * 12) (160 * 512) = Target.bits64.sum size := rfl
  have hle : Target.bits64.sum size ≤ size * 12 + 160 * 512 := Nat.mod_le _ _
  have hlt : Target.bits64.sum size < 2 ^ 64 := Nat.mod_lt _ (by decide)
  have halign : overheadOf size = (Target.bits64.sum size / 524 + 15) / 16 * 16 := by
    rw [overheadOf, hsum, alignTo_eq (by omega)]
    omega
  by_cases hlarge : 2 ^ 33 ≤ size
  · -- An overhead is less than 2^32 or a small part of the size.
    refine .inl ⟨?_, addExtent_refused raw mem fun h => ?_⟩
    · have hover := overhead_lt .bits64 size
      have huser : Target.bits64.userSize size = size - Target.bits64.overhead size :=
        sizeSub_of_le (by omega) hsize
      unfold extentLayout
      split_ifs
      · rfl
      · rfl
      · omega
    · have huser := sizeSub_of_le (h.le hsize) hsize
      have := h.2.2
      omega
  · have hover : Target.bits64.overhead size = overheadOf size := by
      rw [halign]
      exact overhead_eq (.inr (by omega))
    have huser : Target.bits64.userSize size = sizeSub size (overheadOf size) := by
      rw [← hover]
      rfl
    by_cases h : Accepted size
    · obtain ⟨ext, n, hrun, hn, -, hbase, hlim, hold⟩ := addExtent_accepted (c := c) raw mem hsize h
      have hpages : ext.nrpages = n := hold.total
      refine .inr ⟨ext, by rw [hrun, huser, hn], ?_⟩
      obtain ⟨hmod, hmin, hmax⟩ := h
      have hdiv : (512 * n) >>> 9 = n := by
        rw [Nat.shiftRight_eq_div_pow]
        omega
      rw [extentLayout, huser, if_neg (by omega), if_neg (by omega), hover, hbase, hlim, hpages, hn,
        hdiv, Int.toNat_natCast]
    · refine .inl ⟨?_, addExtent_refused raw mem h⟩
      unfold Accepted at h
      unfold extentLayout
      rw [huser]
      split_ifs
      · rfl
      · rfl
      · omega

end Layout

end Libevl.Heap
