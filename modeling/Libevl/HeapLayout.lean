import Libevl.HeapBucket
import Libevl.Tiling
import Mathlib.Tactic.Linarith

/-!
# What the pages of an extent are used for

The page pool of an extent is tiled by free ranges, multi-page blocks and bucket
pages. A layout lists these tiles from the first page to the last. It determines
the free ranges and the blocks of the extent, and the pagemap describes it.
-/
namespace Libevl.Heap
open Tiling

section Bits

/-- The number of blocks in a page. -/
def slots (l : ℕ) : ℕ := 512 >>> l

/-- The sizes of bucketed blocks. -/
def Bucketed (l : ℕ) : Prop := 4 ≤ l ∧ l < 9

theorem Bucketed.cases {l : ℕ} (h : Bucketed l) : l = 4 ∨ l = 5 ∨ l = 6 ∨ l = 7 ∨ l = 8 := by
  obtain ⟨h₁, h₂⟩ := h
  omega

theorem slots_mul {l : ℕ} (h : Bucketed l) : slots l * 2 ^ l = 512 := by
  rcases h.cases with rfl | rfl | rfl | rfl | rfl <;> decide

theorem slots_range {l : ℕ} (h : Bucketed l) : 2 ≤ slots l ∧ slots l ≤ 32 := by
  rcases h.cases with rfl | rfl | rfl | rfl | rfl <;> decide

theorem getLsbD_genBlockMask {l k : ℕ} (h : Bucketed l) (hk : k < 32) :
    (genBlockMask l).getLsbD k = decide (k < slots l) := by
  revert k
  rcases h.cases with rfl | rfl | rfl | rfl | rfl <;> decide

variable {map : BitVec 32} {l b k : ℕ}

/-- The bits above the slots of a page are set. -/
def Padded (l : ℕ) (map : BitVec 32) : Prop := ∀ k, slots l ≤ k → k < 32 → map.getLsbD k = true

theorem getLsbD_oneShift (hb : b < 32) : (1#32 <<< b).getLsbD k = (k == b) := by
  rw [BitVec.getLsbD_shiftLeft, BitVec.getLsbD_one, Bool.eq_iff_iff]
  simp only [Bool.and_eq_true, Bool.not_eq_true', decide_eq_true_eq, decide_eq_false_iff_not,
    beq_iff_eq]
  omega

theorem getLsbD_setBit (hb : b < 32) :
    (map ||| 1#32 <<< b).getLsbD k = (map.getLsbD k || k == b) := by
  rw [BitVec.getLsbD_or, getLsbD_oneShift hb]

theorem getLsbD_clearBit (hb : b < 32) (hk : k < 32) :
    (map &&& ~~~ (1#32 <<< b)).getLsbD k = (map.getLsbD k && k != b) := by
  rw [BitVec.getLsbD_and, BitVec.getLsbD_not, getLsbD_oneShift hb]
  simp [hk, bne]

/-- A map is full when all its bits are set. -/
theorem full_iff : map = BitVec.allOnes 32 ↔ ∀ k < 32, map.getLsbD k = true := by
  constructor
  · rintro rfl k hk
    rw [BitVec.getLsbD_allOnes, decide_eq_true hk]
  · intro h
    refine BitVec.eq_of_getLsbD_eq fun k hk => ?_
    rw [h k hk, BitVec.getLsbD_allOnes, decide_eq_true hk]

/-- A free slot is found in a map that is not full. -/
theorem tzcount_spec (h : map ≠ BitVec.allOnes 32) :
    tzcount (~~~ map) < 32 ∧ map.getLsbD (tzcount (~~~ map)) = false := by
  obtain ⟨i, hi, hbit⟩ : ∃ i < 32, (~~~ map).getLsbD i = true := by
    by_contra hnone
    push Not at hnone
    refine h (full_iff.mpr fun k hk => ?_)
    have := hnone k hk
    rw [BitVec.getLsbD_not] at this
    simpa [hk] using this
  obtain ⟨b, hfind⟩ := Option.isSome_iff_exists.mp
    (List.find?_isSome.mpr ⟨i, List.mem_range.mpr hi, hbit⟩)
  have hb := List.mem_range.mp (List.mem_of_find?_eq_some hfind)
  have hset := List.find?_some hfind
  rw [tzcount, hfind, Option.getD_some]
  rw [BitVec.getLsbD_not] at hset
  exact ⟨hb, by simpa [hb] using hset⟩

/-- A page is idle when only the bits above its slots are set. -/
theorem idle_iff (hl : Bucketed l) (hp : Padded l map) :
    map = ~~~ genBlockMask l ↔ ∀ k < slots l, map.getLsbD k = false := by
  have hs := slots_range hl
  constructor
  · rintro rfl k hk
    rw [BitVec.getLsbD_not, getLsbD_genBlockMask hl (by omega)]
    simp [hk]
  · intro h
    refine BitVec.eq_of_getLsbD_eq fun k hk => ?_
    rw [BitVec.getLsbD_not, getLsbD_genBlockMask hl hk]
    by_cases hks : k < slots l
    · simp [h k hks, hks]
    · simp [hp k (by omega) hk, hks, hk]

/-- The map of a page whose first block is in use. -/
theorem getLsbD_freshMap (hl : Bucketed l) (hk : k < 32) :
    (~~~ genBlockMask l ||| 1#32).getLsbD k = (decide (slots l ≤ k) || k == 0) := by
  rw [BitVec.getLsbD_or, BitVec.getLsbD_not, getLsbD_genBlockMask hl hk, BitVec.getLsbD_one]
  by_cases h₀ : k = 0
  · simp [h₀]
  · by_cases hks : k < slots l
    · simp [hks, h₀]
    · simp [hk, hks]
      omega

end Bits

section Tiles

/-- What the pages of an extent are used for: a free range, a block of whole pages, or a page of
blocks of `2 ^ l` bytes with its map. -/
inductive Seg
  | free (n : ℕ)
  | multi (n : ℕ)
  | bucket (l : ℕ) (map : BitVec 32)
  deriving DecidableEq

def Seg.pages : Seg → ℕ
  | free n => n
  | multi n => n
  | bucket _ _ => 1

/-- The slots in use of a page. -/
def busy (l : ℕ) (map : BitVec 32) : List ℕ := (List.range (slots l)).filter fun k => map.getLsbD k

/-- The blocks of a tile at the address `a`, with their sizes. -/
def Seg.blocks (a : ℤ) : Seg → List (ℤ × ℕ)
  | free _ => []
  | multi n => [(a, 512 * n)]
  | bucket l map => (busy l map).map fun k => (a + (k * 2 ^ l : ℕ), 2 ^ l)

def Seg.Valid : Seg → Prop
  | free n => 0 < n
  | multi n => 0 < n
  | bucket l map => Bucketed l ∧ Padded l map ∧ busy l map ≠ []

/-- The free range of a tile, if it is one. -/
def rangeAt (base : ℤ) : ℕ × Seg → Option (ℤ × ℕ)
  | (p, .free n) => some (base + 512 * p, 512 * n)
  | (_, .multi _) => none
  | (_, .bucket _ _) => none

/-- The free ranges of tiles that start at the page `p`. -/
def frees (base : ℤ) (p : ℕ) (segs : List Seg) : List (ℤ × ℕ) :=
  (place Seg.pages p segs).filterMap (rangeAt base)

/-- The blocks of tiles that start at the page `p`. -/
def blocksOf (base : ℤ) (p : ℕ) (segs : List Seg) : List (ℤ × ℕ) :=
  (place Seg.pages p segs).flatMap fun x => x.2.blocks (base + 512 * x.1)

/-- The page `x` is one of the placed tiles, and holds blocks of `2 ^ l` bytes. -/
def IsBucket (places : List (ℕ × Seg)) (l : ℕ) (x : ℤ) : Prop :=
  ∃ p map, (p, Seg.bucket l map) ∈ places ∧ x = (p : ℕ)

variable {base : ℤ} {p n : ℕ} {s : Seg} {segs A B : List Seg} {pre post : List (ℤ × ℕ)}
  {r : ℤ × ℕ} {map : BitVec 32} {l : ℕ} {x : ℤ}

@[simp] theorem frees_nil : frees base p [] = [] := rfl

@[simp] theorem frees_append :
    frees base p (A ++ B) = frees base p A ++ frees base (p + cover Seg.pages A) B := by
  simp [frees]

@[simp] theorem frees_free :
    frees base p (.free n :: B) = (base + 512 * p, 512 * n) :: frees base (p + n) B := rfl

@[simp] theorem frees_multi : frees base p (.multi n :: B) = frees base (p + n) B := rfl

@[simp] theorem frees_bucket : frees base p (.bucket l map :: B) = frees base (p + 1) B := rfl

@[simp] theorem blocksOf_nil : blocksOf base p [] = [] := rfl

@[simp] theorem blocksOf_append :
    blocksOf base p (A ++ B) = blocksOf base p A ++ blocksOf base (p + cover Seg.pages A) B := by
  simp [blocksOf]

@[simp] theorem blocksOf_cons :
    blocksOf base p (s :: B) = s.blocks (base + 512 * p) ++ blocksOf base (p + s.pages) B := rfl

/-- The free ranges lie in their tiles. -/
theorem frees_bounds (hr : r ∈ frees base p segs) :
    base + 512 * (p : ℤ) ≤ r.1 ∧ r.1 + r.2 ≤ base + 512 * ((p + cover Seg.pages segs : ℕ) : ℤ) := by
  obtain ⟨⟨q, s⟩, hq, hs⟩ := List.mem_filterMap.mp hr
  have hb := place_bounds hq
  cases s with
  | free n =>
    obtain rfl := Option.some.inj hs
    simp only [Seg.pages] at hb
    constructor <;> simp only <;> omega
  | multi n => simp [rangeAt] at hs
  | bucket l map => simp [rangeAt] at hs

/-- A free range belongs to a tile. -/
theorem exists_free (h : frees base p segs = pre ++ r :: post) :
    ∃ A n B, segs = A ++ .free n :: B ∧ pre = frees base p A ∧
      r = (base + 512 * ((p + cover Seg.pages A : ℕ) : ℤ), 512 * n) ∧
      post = frees base (p + cover Seg.pages A + n) B := by
  induction segs generalizing p pre with
  | nil => simp at h
  | cons s segs ih =>
    have hskip (hs : frees base p (s :: segs) = frees base (p + s.pages) segs)
        (hs' : ∀ A, frees base p (s :: A) = frees base (p + s.pages) A) :
        ∃ A n B, s :: segs = A ++ .free n :: B ∧ pre = frees base p A ∧
          r = (base + 512 * ((p + cover Seg.pages A : ℕ) : ℤ), 512 * n) ∧
          post = frees base (p + cover Seg.pages A + n) B := by
      obtain ⟨A, n, B, rfl, rfl, rfl, rfl⟩ := ih (hs ▸ h)
      exact ⟨s :: A, n, B, rfl, (hs' A).symm, by simp [Nat.add_assoc], by simp [Nat.add_assoc]⟩
    cases s with
    | multi n => exact hskip rfl fun _ => rfl
    | bucket l map => exact hskip rfl fun _ => rfl
    | free n =>
      rw [frees_free] at h
      cases pre with
      | nil =>
        obtain ⟨rfl, rfl⟩ := List.cons.inj h
        exact ⟨[], n, segs, rfl, rfl, by simp, by simp⟩
      | cons q pre =>
        obtain ⟨rfl, hrest⟩ := List.cons.inj h
        obtain ⟨A, m, B, rfl, rfl, rfl, rfl⟩ := ih hrest
        exact ⟨.free n :: A, m, B, rfl, rfl, by simp [Seg.pages, Nat.add_assoc],
          by simp [Seg.pages, Nat.add_assoc]⟩

theorem mem_busy {k : ℕ} : k ∈ busy l map ↔ k < slots l ∧ map.getLsbD k = true := by
  simp [busy]

theorem busy_nodup : (busy l map).Nodup := List.nodup_range.filter _

/-- A slot that is taken. -/
theorem busy_set {b : ℕ} (hl : Bucketed l) (hb : b < slots l) (hfree : map.getLsbD b = false) :
    (busy l (map ||| 1#32 <<< b)).Perm (b :: busy l map) := by
  have hs := slots_range hl
  refine (List.perm_ext_iff_of_nodup busy_nodup (List.nodup_cons.mpr ⟨?_, busy_nodup⟩)).mpr
    fun k => ?_
  · simp [mem_busy, hfree]
  · rw [mem_busy, getLsbD_setBit (by omega), List.mem_cons, mem_busy]
    simp only [Bool.or_eq_true, beq_iff_eq]
    constructor
    · rintro ⟨h₁, h₂ | h₂⟩
      · exact .inr ⟨h₁, h₂⟩
      · exact .inl h₂
    · rintro (rfl | ⟨h₁, h₂⟩)
      · exact ⟨hb, .inr rfl⟩
      · exact ⟨h₁, .inl h₂⟩

/-- A slot that is released. -/
theorem busy_clear {b : ℕ} (hl : Bucketed l) (hb : b ∈ busy l map) :
    (busy l map).Perm (b :: busy l (map &&& ~~~ (1#32 <<< b))) := by
  have hs := slots_range hl
  have hbs := mem_busy.mp hb
  have hmem {k : ℕ} : k ∈ busy l (map &&& ~~~ (1#32 <<< b)) ↔ k ∈ busy l map ∧ k ≠ b := by
    rw [mem_busy, mem_busy]
    constructor
    · rintro ⟨h₁, h₂⟩
      rw [getLsbD_clearBit (by omega) (by omega)] at h₂
      simp only [Bool.and_eq_true, bne_iff_ne] at h₂
      exact ⟨⟨h₁, h₂.1⟩, h₂.2⟩
    · rintro ⟨⟨h₁, h₂⟩, h₃⟩
      rw [getLsbD_clearBit (by omega) (by omega)]
      simp [h₁, h₂, h₃]
  refine (List.perm_ext_iff_of_nodup busy_nodup (List.nodup_cons.mpr ⟨?_, busy_nodup⟩)).mpr
    fun k => ?_
  · simp [hmem]
  · rw [List.mem_cons, hmem]
    constructor
    · intro hk
      by_cases hkb : k = b
      · exact .inl hkb
      · exact .inr ⟨hk, hkb⟩
    · rintro (rfl | ⟨hk, -⟩)
      · exact hb
      · exact hk

/-- A page with its first slot in use. -/
theorem busy_fresh (hl : Bucketed l) : busy l (~~~ genBlockMask l ||| 1#32) = [0] := by
  rcases hl.cases with rfl | rfl | rfl | rfl | rfl <;> decide

theorem padded_setBit {b : ℕ} (hb : b < 32) (h : Padded l map) : Padded l (map ||| 1#32 <<< b) := by
  intro k h₁ h₂
  rw [getLsbD_setBit hb, h k h₁ h₂, Bool.true_or]

theorem padded_clearBit {b : ℕ} (hl : Bucketed l) (hb : b < slots l) (h : Padded l map) :
    Padded l (map &&& ~~~ (1#32 <<< b)) := by
  have hs := slots_range hl
  intro k h₁ h₂
  have hkb : k ≠ b := by omega
  rw [getLsbD_clearBit (by omega) h₂, h k h₁ h₂]
  simp [hkb]

theorem padded_fresh (hl : Bucketed l) : Padded l (~~~ genBlockMask l ||| 1#32) := by
  intro k h₁ h₂
  rw [getLsbD_freshMap hl h₂]
  simp [h₁]

/-- The slot of the block. -/
theorem slot_bounds {k : ℕ} (hl : Bucketed l) (hk : k < slots l) : k * 2 ^ l + 2 ^ l ≤ 512 := by
  calc
    k * 2 ^ l + 2 ^ l = (k + 1) * 2 ^ l := by ring
    _ ≤ slots l * 2 ^ l := Nat.mul_le_mul_right _ hk
    _ = 512 := slots_mul hl

/-- Blocks lie in their tile, on multiples of 16 bytes. -/
theorem Seg.Valid.blocks_bounds {a : ℤ} (hs : s.Valid) (hx : r ∈ s.blocks a) :
    a ≤ r.1 ∧ r.1 + r.2 ≤ a + 512 * s.pages ∧ (r.1 - a) % 16 = 0 ∧ 0 < r.2 := by
  cases s with
  | free n => simp [Seg.blocks] at hx
  | multi n =>
    obtain rfl := List.mem_singleton.mp hx
    have hn : 0 < n := hs
    simp only [Seg.pages]
    omega
  | bucket l map =>
    obtain ⟨k, hk, rfl⟩ := List.mem_map.mp hx
    have hb := slot_bounds hs.1 (mem_busy.mp hk).1
    have hpos : 0 < 2 ^ l := Nat.two_pow_pos l
    have hdvd : 16 ∣ k * 2 ^ l := Dvd.dvd.mul_left (pow_dvd_pow 2 hs.1.1) k
    simp only [Seg.pages]
    omega

/-- The blocks of a tile do not overlap. -/
theorem Seg.blocks_apart (a : ℤ) (s : Seg) : (s.blocks a).Pairwise Apart := by
  cases s with
  | free n => exact .nil
  | multi n => exact List.pairwise_singleton _ _
  | bucket l map =>
    refine (List.pairwise_lt_range.filter _).map _ fun i j hij => .inl ?_
    have hle : (i + 1) * 2 ^ l ≤ j * 2 ^ l := Nat.mul_le_mul_right _ hij
    have hexp : (i + 1) * 2 ^ l = i * 2 ^ l + 2 ^ l := by ring
    simp only
    omega

theorem blocksOf_bounds (hv : ∀ s ∈ segs, s.Valid) (hx : r ∈ blocksOf base p segs) :
    base + 512 * (p : ℤ) ≤ r.1 ∧ r.1 + r.2 ≤ base + 512 * ((p + cover Seg.pages segs : ℕ) : ℤ) := by
  obtain ⟨⟨q, s⟩, hq, hs⟩ := List.mem_flatMap.mp hx
  have hb := place_bounds hq
  obtain ⟨h₁, h₂, -, -⟩ := (hv s (mem_of_place hq)).blocks_bounds hs
  simp only at h₁ h₂
  omega

/-- The blocks of an extent do not overlap. -/
theorem blocksOf_apart (hv : ∀ s ∈ segs, s.Valid) : (blocksOf base p segs).Pairwise Apart := by
  induction segs generalizing p with
  | nil => exact .nil
  | cons s segs ih =>
    rw [blocksOf_cons]
    have hv' : ∀ t ∈ segs, t.Valid := fun t ht => hv t (List.mem_cons_of_mem _ ht)
    refine List.pairwise_append.mpr ⟨Seg.blocks_apart _ s, ih hv', fun x hx y hy => .inl ?_⟩
    have h₁ := ((hv s List.mem_cons_self).blocks_bounds hx).2.1
    have h₂ := (blocksOf_bounds hv' hy).1
    push_cast at h₂
    linarith

/-- The placed tiles with blocks of `2 ^ l` bytes. -/
@[simp] theorem isBucket_append {P Q : List (ℕ × Seg)} :
    IsBucket (P ++ Q) l x ↔ IsBucket P l x ∨ IsBucket Q l x := by
  simp only [IsBucket, List.mem_append]
  constructor
  · rintro ⟨p, map, h | h, rfl⟩
    · exact .inl ⟨p, map, h, rfl⟩
    · exact .inr ⟨p, map, h, rfl⟩
  · rintro (⟨p, map, h, rfl⟩ | ⟨p, map, h, rfl⟩)
    · exact ⟨p, map, .inl h, rfl⟩
    · exact ⟨p, map, .inr h, rfl⟩

@[simp] theorem isBucket_nil : ¬ IsBucket [] l x := by simp [IsBucket]

@[simp] theorem isBucket_free {P : List (ℕ × Seg)} :
    IsBucket ((p, .free n) :: P) l x ↔ IsBucket P l x := by
  simp [IsBucket]

@[simp] theorem isBucket_multi {P : List (ℕ × Seg)} :
    IsBucket ((p, .multi n) :: P) l x ↔ IsBucket P l x := by
  simp [IsBucket]

@[simp] theorem isBucket_bucket {k : ℕ} {P : List (ℕ × Seg)} :
    IsBucket ((p, .bucket k map) :: P) l x ↔ l = k ∧ x = p ∨ IsBucket P l x := by
  simp only [IsBucket, List.mem_cons, Prod.mk.injEq, Seg.bucket.injEq]
  constructor
  · rintro ⟨q, m, ⟨rfl, rfl, rfl⟩ | h, rfl⟩
    · exact .inl ⟨rfl, rfl⟩
    · exact .inr ⟨q, m, h, rfl⟩
  · rintro (⟨rfl, rfl⟩ | ⟨q, m, h, rfl⟩)
    · exact ⟨p, map, .inl ⟨rfl, rfl, rfl⟩, rfl⟩
    · exact ⟨q, m, .inr h, rfl⟩

end Tiles

section Holds

variable {c : Cfg} {ext ext' : HeapExtent} {segs A B S S' : List Seg} {m m' : ℤ → HeapPgentry}
  {x : ℕ × Seg}

/-- The pagemap entries of a placed tile. The number of a page in use is one that the shift of
`pagenr_to_addr` maps to its offset. -/
def Described (c : Cfg) (m : ℤ → HeapPgentry) : ℕ × Seg → Prop
  | (p, .free n) => c.debug = true → ∀ q : ℕ, p ≤ q → q < p + n → (m q).type = pageFree
  | (p, .multi n) => (m p).type = pageList ∧ (m p).map = BitVec.ofNat 32 (512 * n) ∧
      (c.debug = true → ∀ q : ℕ, p < q → q < p + n → (m q).type = pageCont) ∧
      c.int ((p : ℤ) * 512) = (p : ℤ) * 512
  | (p, .bucket l map) => (m p).type = l ∧ (m p).map = map ∧ c.int ((p : ℤ) * 512) = (p : ℤ) * 512

/-- Only the entries of the tile matter, and not their links. -/
theorem Described.congr (h : Described c m x) (hx : 0 < x.2.pages)
    (hm : ∀ q : ℕ, x.1 ≤ q → q < x.1 + x.2.pages →
      (m' q).type = (m q).type ∧ (m' q).map = (m q).map) : Described c m' x := by
  obtain ⟨p, s⟩ := x
  cases s with
  | free n =>
    intro hd q h₁ h₂
    rw [(hm q h₁ h₂).1, h hd q h₁ h₂]
  | multi n =>
    obtain ⟨h₁, h₂, h₃, h₄⟩ := h
    have hp := hm p le_rfl (Nat.lt_add_of_pos_right hx)
    refine ⟨hp.1.trans h₁, hp.2.trans h₂, fun hd q hq₁ hq₂ => ?_, h₄⟩
    rw [(hm q hq₁.le hq₂).1, h₃ hd q hq₁ hq₂]
  | bucket l map =>
    obtain ⟨h₁, h₂, h₃⟩ := h
    have hp := hm p le_rfl (Nat.lt_add_of_pos_right hx)
    exact ⟨hp.1.trans h₁, hp.2.trans h₂, h₃⟩

theorem Seg.Valid.pages_pos {s : Seg} (h : s.Valid) : 0 < s.pages := by
  cases s with
  | free n => exact h
  | multi n => exact h
  | bucket l map => exact Nat.one_pos

/-- The extent lies in the same memory. -/
structure SamePlace (ext ext' : HeapExtent) : Prop where
  mem : ext'.mem = ext.mem
  membase : ext'.membase = ext.membase
  memlim : ext'.memlim = ext.memlim
  nrpages : ext'.nrpages = ext.nrpages

theorem SamePages.samePlace (h : SamePages ext ext') : SamePlace ext ext' :=
  ⟨h.mem, h.membase, h.memlim, h.nrpages⟩

theorem SamePlace.trans {ext'' : HeapExtent} (h : SamePlace ext ext') (h' : SamePlace ext' ext'') :
    SamePlace ext ext'' :=
  ⟨h'.mem.trans h.mem, h'.membase.trans h.membase, h'.memlim.trans h.memlim,
    h'.nrpages.trans h.nrpages⟩

theorem samePlace_withPagemap : SamePlace ext (ext.withPagemap m) := ⟨rfl, rfl, rfl, rfl⟩

/-- The extent is laid out as the tiles say. -/
structure Holds (c : Cfg) (ext : HeapExtent) (segs : List Seg) : Prop where
  limit : ext.memlim = ext.membase + 512 * ext.nrpages
  total : ext.nrpages = (cover Seg.pages segs : ℕ)
  bound : ext.nrpages < 2 ^ 23
  valid : ∀ s ∈ segs, s.Valid
  ranges : Ranges ext (frees ext.membase 0 segs)
  described : ∀ x ∈ place Seg.pages 0 segs, Described c ext.pagemap x

/-- Some tiles are replaced by others, which fill the same pages. -/
theorem Holds.replace (h : Holds c ext (A ++ S ++ B)) (hplace : SamePlace ext ext')
    (hcov : cover Seg.pages S' = cover Seg.pages S) (hv : ∀ s ∈ S', s.Valid)
    (hranges : Ranges ext' (frees ext.membase 0 (A ++ S' ++ B)))
    (hmap : ∀ q : ℕ, q < cover Seg.pages A ∨ cover Seg.pages A + cover Seg.pages S ≤ q →
      (ext'.pagemap q).type = (ext.pagemap q).type ∧ (ext'.pagemap q).map = (ext.pagemap q).map)
    (hd : ∀ x ∈ place Seg.pages (cover Seg.pages A) S', Described c ext'.pagemap x) :
    Holds c ext' (A ++ S' ++ B) := by
  have hold := h.described
  refine ⟨?_, ?_, hplace.nrpages ▸ h.bound, fun s hs => ?_, hplace.membase ▸ hranges, ?_⟩
  · rw [hplace.memlim, hplace.membase, hplace.nrpages, h.limit]
  · rw [hplace.nrpages, h.total]
    simp [hcov]
  · rw [List.mem_append, List.mem_append] at hs
    rcases hs with (hs | hs) | hs
    · exact h.valid s (by simp [hs])
    · exact hv s hs
    · exact h.valid s (by simp [hs])
  · simp only [place_append, List.mem_append, cover_append, Nat.zero_add] at hold ⊢
    rintro x ((hx | hx) | hx)
    · have hb := place_bounds hx
      have hm : x.2 ∈ A := mem_of_place hx
      have hpos := (h.valid x.2 (by simp [hm])).pages_pos
      exact (hold x (.inl (.inl hx))).congr hpos fun q h₁ h₂ => hmap q (.inl (by omega))
    · exact hd x hx
    · rw [hcov] at hx
      have hb := place_bounds hx
      have hm : x.2 ∈ B := mem_of_place hx
      have hpos := (h.valid x.2 (by simp [hm])).pages_pos
      exact (hold x (.inr hx)).congr hpos fun q h₁ h₂ => hmap q (.inr (by omega))

/-- A bucket page is a page of the extent. -/
theorem Holds.hasPage (h : Holds c ext segs) {p : ℕ} {s : Seg}
    (hp : (p, s) ∈ place Seg.pages 0 segs) : ext.HasPage p := by
  have hb := place_bounds hp
  have hpos := (h.valid s (mem_of_place hp)).pages_pos
  have ht := h.total
  constructor <;> omega

end Holds

end Libevl.Heap
