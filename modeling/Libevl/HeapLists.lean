import Libevl.HeapSafety

/-!
# The page lists of a heap with one extent

An allocation only looks at the head of the list. The pages with room come first
in every list as long as no free moves a head page with room behind full pages,
which `move_page_front` does when it makes another page the head.
-/
namespace Libevl.Heap
open AvlTree Tiling Transition PageRing

section Tiles

variable {A B : List Seg} {q : ℕ} {s u : Seg}

/-- Another tile of the same length. -/
theorem mem_remapped {t : Seg} (hs : t.pages = s.pages) (hu : 0 < u.pages) (hpos : 0 < s.pages) :
    (q, u) ∈ place Seg.pages 0 (A ++ t :: B) ↔
      (q, u) = (cover Seg.pages A, t) ∨
        (q, u) ∈ place Seg.pages 0 (A ++ s :: B) ∧ q ≠ cover Seg.pages A := by
  rw [mem_place_middle, mem_place_middle, hs, Nat.zero_add]
  constructor
  · rintro (h | h | h)
    · have := (place_bounds h).2
      exact .inr ⟨.inl h, by omega⟩
    · exact .inl h
    · have := (place_bounds h).1
      exact .inr ⟨.inr (.inr h), by omega⟩
  · rintro (h | ⟨h | h | h, hq⟩)
    · exact .inr (.inl h)
    · exact .inl h
    · exact absurd (congrArg Prod.fst h) hq
    · exact .inr (.inr h)

end Tiles

section Rooms

variable {A B A' B' : List Seg} {n k l : ℕ} {s : Seg} {map map' : BitVec 32} {L R : Option ℕ} {y : ℤ}

/-- Fresh tiles give no room in pages that exist. -/
theorem room_carved (hkn : k ≤ n) (hs : s.pages = k) : Room (carved A n k s B) l y ↔
    Room (A ++ .free n :: B) l y ∨
      ∃ map, s = .bucket l map ∧ y = (carvedPage A n k : ℕ) ∧ map ≠ BitVec.allOnes 32 := by
  simp only [Room]
  constructor
  · rintro ⟨p, map, hp, rfl, hmap⟩
    rcases (mem_carved hkn hs (.bucket ..)).mp hp with hp | hp
    · exact .inl ⟨p, map, hp, rfl, hmap⟩
    · obtain ⟨rfl, rfl⟩ := Prod.mk.inj hp
      exact .inr ⟨map, rfl, rfl, hmap⟩
  · rintro (⟨p, map, hp, rfl, hmap⟩ | ⟨map, rfl, rfl, hmap⟩)
    · exact ⟨p, map, (mem_carved hkn hs (.bucket ..)).mpr (.inl hp), rfl, hmap⟩
    · exact ⟨_, map, (mem_carved hkn hs (.bucket ..)).mpr (.inr rfl), rfl, hmap⟩

/-- Released tiles take their own room with them, and no other. -/
theorem room_released :
    Room (A' ++ (Option.map Seg.free L).toList ++ s :: ((Option.map Seg.free R).toList ++ B')) l y ↔
      Room (A' ++ .free (L.getD 0 + s.pages + R.getD 0) :: B') l y ∨
        ∃ map, s = .bucket l map ∧
          y = (cover Seg.pages (A' ++ (Option.map Seg.free L).toList) : ℕ) ∧
          map ≠ BitVec.allOnes 32 := by
  simp only [Room]
  constructor
  · rintro ⟨p, map, hp, rfl, hmap⟩
    rcases (mem_released (.bucket ..)).mp hp with hp | hp
    · exact .inl ⟨p, map, hp, rfl, hmap⟩
    · obtain ⟨rfl, rfl⟩ := Prod.mk.inj hp
      exact .inr ⟨map, rfl, rfl, hmap⟩
  · rintro (⟨p, map, hp, rfl, hmap⟩ | ⟨map, rfl, rfl, hmap⟩)
    · exact ⟨p, map, (mem_released (.bucket ..)).mpr (.inl hp), rfl, hmap⟩
    · exact ⟨_, map, (mem_released (.bucket ..)).mpr (.inr rfl), rfl, hmap⟩

/-- The room of a page changes with its map only. -/
theorem room_remapped (map : BitVec 32) : Room (A ++ .bucket l map' :: B) l y ↔
    y = (cover Seg.pages A : ℕ) ∧ map' ≠ BitVec.allOnes 32 ∨
      y ≠ (cover Seg.pages A : ℕ) ∧ Room (A ++ .bucket l map :: B) l y := by
  have hmem {q : ℕ} {m : BitVec 32} := mem_remapped (A := A) (B := B) (q := q)
    (u := .bucket l m) (s := .bucket l map) (t := .bucket l map') rfl Nat.one_pos Nat.one_pos
  simp only [Room]
  constructor
  · rintro ⟨p, m, hp, rfl, hm⟩
    rcases hmem.mp hp with hp | ⟨hp, hne⟩
    · cases hp
      exact .inl ⟨rfl, hm⟩
    · exact .inr ⟨by exact_mod_cast hne, p, m, hp, rfl, hm⟩
  · rintro (⟨rfl, hm⟩ | ⟨hne, p, m, hp, rfl, hm⟩)
    · exact ⟨_, map', hmem.mpr (.inl rfl), rfl, hm⟩
    · exact ⟨p, m, hmem.mpr (.inr ⟨hp, by exact_mod_cast hne⟩), rfl, hm⟩

/-- Pages of other sizes keep their room. -/
theorem room_remapped_ne {i : ℕ} (hi : i ≠ l) : Room (A ++ .bucket l map' :: B) i y ↔
    Room (A ++ .bucket l map :: B) i y := by
  have hone {m m' : BitVec 32} (h : Room (A ++ .bucket l m :: B) i y) :
      Room (A ++ .bucket l m' :: B) i y := by
    obtain ⟨p, m₀, hp, rfl, hm⟩ := h
    rcases (mem_remapped (s := .bucket l m') (t := .bucket l m) (u := .bucket i m₀)
      rfl Nat.one_pos Nat.one_pos).mp hp with hp | ⟨hp, -⟩
    · cases hp
      exact absurd rfl hi
    · exact ⟨p, m₀, hp, rfl, hm⟩
  exact ⟨hone, hone⟩

end Rooms

section Fronts

variable {c : Cfg} {h : EvlHeap} {abs abs' : Abs} {size l k : ℕ} {r : Option ℤ} {map : BitVec 32}
  {ext : HeapExtent} {segs A B : List Seg} {y : ℤ}

/-- In every list of a heap with one extent, the pages with room come first. -/
def Abs.Fronted (abs : Abs) : Prop :=
  ∀ l, Bucketed l → ∀ x, abs.pairs[0]? = some x → Front (Room x.2 l) (abs.ring (l - 4))

theorem fresh_ne_full (hl : Bucketed l) : ~~~ genBlockMask l ||| 1#32 ≠ BitVec.allOnes 32 := by
  rcases hl.cases with rfl | rfl | rfl | rfl | rfl <;> decide

theorem cleared_ne_full (hk : k < 32) : cleared map k ≠ BitVec.allOnes 32 := by
  intro hfull
  have hbit := full_iff.mp hfull k hk
  rw [cleared, getLsbD_clearBit hk hk] at hbit
  simp at hbit

theorem getElem?_single {x : HeapExtent × List Seg} {j : ℕ} (x' : HeapExtent × List Seg)
    (hone : abs.pairs.length = 1) (hj : abs.pairs[j]? = some x) : j = 0 ∧ (abs.pairs.set j x')[0]? = some x' := by
  have hlt := (List.getElem?_eq_some_iff.mp hj).1
  obtain rfl : j = 0 := by omega
  exact ⟨rfl, by simp [hlt]⟩

/-- A list in the only extent is full when its head is. -/
theorem HeapInv.ring_full (hi : HeapInv c h abs) (hone : abs.pairs.length = 1) (hf : abs.Fronted)
    (hl : Bucketed l) (hj : abs.pairs[0]? = some (ext, segs)) (hno : ¬ abs.HeadRoom l) :
    ∀ y ∈ abs.ring (l - 4), ¬ Room segs l y := by
  cases hring : abs.ring (l - 4) with
  | nil => simp
  | cons a R =>
    have hhome := hi.rings.home _ hl.index.1 (by simp [hring])
    have hzero : abs.home (l - 4) = 0 := by omega
    have hfront := hf l hl _ hj
    rw [hring] at hfront
    exact hfront.none fun hroom => hno ⟨a, R, _, hring, hzero ▸ hj, hroom⟩

theorem Allocated.fronted (hi : HeapInv c h abs) (hone : abs.pairs.length = 1) (hf : abs.Fronted)
    (ha : Allocated c abs size r abs') : abs'.Fronted := by
  cases ha with
  | empty => exact hf
  | noRange => exact hf
  | noPage => exact hf
  | range ext' _ _ _ hfound =>
    intro i hi' x hx
    obtain ⟨rfl, hset⟩ := getElem?_single (ext', _) hone hfound.place
    obtain rfl := Option.some.inj (hset.symm.trans hx)
    refine (hf i hi' _ hfound.place).congr fun y _ => ?_
    rw [room_carved hfound.fits rfl]
    simp
  | @page l j n ext A B ext' _ hl _ hno hfound =>
    intro i hi' x hx
    obtain ⟨rfl, hset⟩ := getElem?_single (ext', _) hone hfound.place
    obtain rfl := Option.some.inj (hset.symm.trans hx)
    have hroom {i : ℕ} {y : ℤ} := room_carved (A := A) (B := B) (n := n) (k := 1) (l := i) (y := y)
      (s := freshPage l) hfound.fits rfl
    by_cases hil : i = l
    · subst hil
      have hfull := hi.ring_full hone hf hl hfound.place hno
      have hold : ∀ y ∈ abs.ring (i - 4), ¬ Room (carved A n 1 (freshPage i) B) i y := by
        intro y hy
        rw [hroom]
        rintro (hr | ⟨map, -, rfl, -⟩)
        · exact hfull y hy hr
        · have hfits := hfound.fits
          have hpage := (hi.rings.mem _ hi'.index.1 0 _ hfound.place _).mpr ⟨?_, hy⟩
          · exact not_pages_free (q := carvedPage A n 1) (by rw [carvedPage]; omega)
              (by rw [carvedPage]; omega) rfl hpage
          · have hhome := hi.rings.home _ hi'.index.1 (List.ne_nil_of_mem hy)
            omega
      simp only [Abs.relink, Function.update_self, withFresh]
      refine Front.cons (Front.of_none fun y hy => hold y ?_) ?_
      · cases hring : abs.ring (i - 4) with
        | nil => simp [hring] at hy
        | cons a R =>
          rw [hring] at hy
          simpa [or_comm] using hy
      · exact hroom.mpr (.inr ⟨_, rfl, rfl, fresh_ne_full hi'⟩)
    · have hne : i - 4 ≠ l - 4 := by
        have h₁ := hi'.1
        have h₂ := hl.1
        omega
      simp only [Abs.relink, Function.update_of_ne hne]
      refine (hf i hi' _ hfound.place).congr fun y _ => ?_
      rw [hroom]
      simp [freshPage, Ne.symm hil]
  | @hit l ext A B map R ext' _ hl _ hj _ hring _ =>
    intro i hi' x hx
    obtain ⟨-, hset⟩ := getElem?_single (ext', _) hone hj
    obtain rfl := Option.some.inj (hset.symm.trans hx)
    by_cases hil : i = l
    · subst hil
      have hfront := hf i hi' _ hj
      have hnodup := (hi.onList hj hi' fun _ => by omega).ring.nodup
      rw [hring] at hfront hnodup
      have hrest : Front (Room (A ++ .bucket i (taken map) :: B) i) R := by
        refine hfront.tail.congr fun y hy => ?_
        have hne : y ≠ (cover Seg.pages A : ℕ) := fun heq =>
          (List.nodup_cons.mp hnodup).1 (heq ▸ hy)
        rw [room_remapped map]
        simp [hne]
      simp only [Abs.relink, Function.update_self, hring, rotateFull]
      split_ifs with hfull
      · refine hrest.concat ?_
        rw [room_remapped map]
        simp [hfull]
      · refine hrest.cons ?_
        rw [room_remapped map]
        exact .inl ⟨rfl, hfull⟩
    · have hne : i - 4 ≠ l - 4 := by
        have h₁ := hi'.1
        have h₂ := hl.1
        omega
      simp only [Abs.relink, Function.update_of_ne hne]
      exact (hf i hi' _ hj).congr fun y _ => room_remapped_ne hil

/-- The head that goes behind all others leaves no full page in front of it. -/
def Kept (abs : Abs) (x : ℤ × ℕ) : Prop :=
  ∀ ext A B l k a P Q, abs.pairs[0]? = some (ext, A ++ .bucket l (BitVec.allOnes 32) :: B) →
    abs.ring (l - 4) = a :: P ++ ((cover Seg.pages A : ℕ) : ℤ) :: Q →
    x = (ext.membase + 512 * (cover Seg.pages A : ℤ) + (k * 2 ^ l : ℕ), 2 ^ l) → k < slots l →
    Room (A ++ .bucket l (BitVec.allOnes 32) :: B) l a →
    ∀ y ∈ P ++ Q, Room (A ++ .bucket l (BitVec.allOnes 32) :: B) l y

theorem Freed.fronted {x : ℤ × ℕ} (hi : HeapInv c h abs) (hone : abs.pairs.length = 1)
    (hf : abs.Fronted) (hkept : Kept abs x) (hfreed : Freed abs x abs') : abs'.Fronted := by
  cases hfreed with
  | range ext' hj =>
    intro i hi' x hx
    obtain ⟨rfl, hset⟩ := getElem?_single (ext', _) hone hj
    obtain rfl := Option.some.inj (hset.symm.trans hx)
    refine (hf i hi' _ hj).congr fun y _ => ?_
    rw [room_released]
    simp [Seg.pages]
  | @last j l k ext A B map L R P Q ext' hj _ _ hhome hring =>
    intro i hi' x hx
    obtain ⟨rfl, hset⟩ := getElem?_single (ext', _) hone hj
    obtain rfl := Option.some.inj (hset.symm.trans hx)
    have hfront := hf i hi' _ hj
    have hroom {y : ℤ} : Room (A ++ (Option.map Seg.free L).toList ++
        .bucket l map :: ((Option.map Seg.free R).toList ++ B)) i y ↔ _ := room_released
    by_cases hil : i = l
    · subst hil
      have hnodup := (hi.onList hj hi' fun _ => hhome).ring.nodup
      rw [hring] at hfront hnodup
      have hx := (List.nodup_cons.mp (List.perm_middle.nodup hnodup)).1
      simp only [Abs.relink, Function.update_self]
      refine hfront.erase.congr fun y hy => ?_
      have hne : y ≠ (cover Seg.pages (A ++ (Option.map Seg.free L).toList) : ℕ) := fun heq =>
        hx (heq ▸ hy)
      constructor
      · intro hr
        exact hroom.mpr (.inl hr)
      · intro hr
        rcases hroom.mp hr with hr | ⟨-, -, heq, -⟩
        · exact hr
        · exact absurd heq hne
    · have hne : i - 4 ≠ l - 4 := by
        have h₁ := hi'.1
        have h₂ := ((hi.holds _ (List.mem_of_getElem? hj)).valid (.bucket l map) (by simp)).1.1
        omega
      simp only [Abs.relink, Function.update_of_ne hne]
      refine hfront.congr fun y _ => ?_
      simp only [hroom]
      simp [Ne.symm hil, Seg.pages]
  | @slot j l k ext A B map P Q ext' hj hk _ hhome hring =>
    intro i hi' x hx
    obtain ⟨rfl, hset⟩ := getElem?_single (ext', _) hone hj
    obtain rfl := Option.some.inj (hset.symm.trans hx)
    have hfront := hf i hi' _ hj
    by_cases hil : i = l
    · subst hil
      have hslots := slots_range hi'
      have hnodup := (hi.onList hj hi' fun _ => hhome).ring.nodup
      have hclear : cleared map k ≠ BitVec.allOnes 32 :=
        cleared_ne_full (by have := (mem_busy.mp hk).1; omega)
      rw [hring] at hfront hnodup
      have hx := (List.nodup_cons.mp (List.perm_middle.nodup hnodup)).1
      have hself : Room (A ++ .bucket i (cleared map k) :: B) i (cover Seg.pages A : ℕ) :=
        (room_remapped map).mpr (.inl ⟨rfl, hclear⟩)
      have hother {y : ℤ} (hy : y ∈ P ++ Q) : Room (A ++ .bucket i (cleared map k) :: B) i y ↔
          Room (A ++ .bucket i map :: B) i y := by
        have hne : y ≠ (cover Seg.pages A : ℕ) := fun heq => hx (heq ▸ hy)
        rw [room_remapped map]
        simp [hne]
      have hrest : Front (Room (A ++ .bucket i (cleared map k) :: B) i) (P ++ Q) :=
        hfront.erase.congr fun y hy => hother hy
      simp only [Abs.relink, Function.update_self, rotatePartial]
      split_ifs with hfull
      · subst hfull
        cases P with
        | nil => exact hrest.cons hself
        | cons a P =>
          refine Front.cons ?_ hself
          have ha := hother (y := a) (by simp)
          by_cases hroom : Room (A ++ .bucket i (BitVec.allOnes 32) :: B) i a
          · have hall := hkept ext A B i k a P Q hj hring rfl (mem_busy.mp hk).1 hroom
            refine List.pairwise_append.mpr ⟨hrest.tail, List.pairwise_singleton _ _,
              fun y hy _ _ _ => ?_⟩
            exact (hother (List.mem_cons_of_mem _ hy)).mpr (hall y hy)
          · have hnone := hrest.none (a := a) (L := P ++ Q) fun hr => hroom (ha.mp hr)
            refine Front.of_none fun y hy => hnone y ?_
            simp only [List.mem_append, List.mem_cons, List.not_mem_nil] at hy ⊢
            tauto
      · have hsame {y : ℤ} : Room (A ++ .bucket i (cleared map k) :: B) i y ↔
            Room (A ++ .bucket i map :: B) i y := by
          by_cases hy : y = (cover Seg.pages A : ℕ)
          · exact iff_of_true ((room_remapped map).mpr (.inl ⟨hy, hclear⟩))
              ((room_remapped map).mpr (.inl ⟨hy, hfull⟩))
          · rw [room_remapped map]
            simp [hy]
        exact hfront.congr fun y _ => hsame
    · have hne : i - 4 ≠ l - 4 := by
        have h₁ := hi'.1
        have h₂ := ((hi.holds _ (List.mem_of_getElem? hj)).valid (.bucket l map) (by simp)).1.1
        omega
      simp only [Abs.relink, Function.update_of_ne hne]
      exact hfront.congr fun y _ => room_remapped_ne hil

end Fronts

section Runs

variable {c : Cfg} {s s' : State} {op : Op} {abs abs' : Abs} {l : ℕ} {pg : ℤ} {b : Block}

/-- All blocks of the page are in use. -/
def Full (ext : HeapExtent) (pg : ℤ) : Prop := (ext.pagemap pg).map = BitVec.allOnes 32

/-- The page in which a block lies. -/
def pageOf (ext : HeapExtent) (a : ℤ) : ℤ := (a - ext.membase) / 512

/-- The page is met on the way from the head of the list of the blocks of `2 ^ l` bytes. -/
def Listed (h : EvlHeap) (ext : HeapExtent) (l : ℕ) (pg : ℤ) : Prop :=
  h.buckets (l - 4) ≠ -1 ∧ ∃ k, (nextOf ext.pagemap)^[k] (h.buckets (l - 4)) = pg

/-- The free takes a block out of a full page, while the head of the list has a free block and a
third page is full: the head goes behind that one. -/
def Buries (s : State) (b : Block) : Prop :=
  ∃ ext ∈ s.heap.extents, ∃ l, Bucketed l ∧ blockSize b.size = (2 ^ l, l) ∧
    Full ext (pageOf ext b.addr) ∧ ¬ Full ext (s.heap.buckets (l - 4)) ∧
      ∃ b' ∈ s.live, blockSize b'.size = (2 ^ l, l) ∧
        pageOf ext b'.addr ≠ pageOf ext b.addr ∧ Full ext (pageOf ext b'.addr)

/-- Requests that the heap handles, and frees that bury no head. -/
def Orderly (c : Cfg) (s : State) : Op → Prop
  | .alloc size => Handled c s.heap size
  | .free b => ¬ Buries s b
  | .extend _ _ _ => False
  | .write => True

/-- The head of a list has a free block if any of its pages has one, and is then what an allocation
of that size takes its block from. -/
structure HeadFirst (c : Cfg) (s : State) : Prop where
  head : ∀ ext ∈ s.heap.extents, ∀ l, Bucketed l → HeadFull s.heap l →
    ∀ pg, Listed s.heap ext l pg → Full ext pg
  alloc : ∀ ext ∈ s.heap.extents, ∀ l, Bucketed l → ∀ pg, Listed s.heap ext l pg → ¬ Full ext pg →
    ∀ size < 2 ^ 64, size ≠ 0 → blockSize size = (2 ^ l, l) →
      ∃ h' a, evlAllocBlockUnlocked c (s.heap.withUses []) size = .ok (h', some a) ∧
        ∃ b ∈ s.live, blockSize b.size = (2 ^ l, l) ∧ pageOf ext b.addr = pageOf ext a

theorem Inv.kept (hi : Inv c s abs) (hone : abs.pairs.length = 1) (hb : b ∈ s.live)
    (hno : ¬ Buries s b) : Kept abs b.key := by
  intro ext A B l k a P Q hj hring hkey hk hroom y hy
  have hmem := List.mem_of_getElem? hj
  have hold : Holds c ext (A ++ .bucket l (BitVec.allOnes 32) :: B) := hi.holds _ hmem
  have hl : Bucketed l := (hold.valid (.bucket l (BitVec.allOnes 32)) (by simp)).1
  have hhome : abs.ring (l - 4) ≠ [] → abs.home (l - 4) = 0 := fun hne => by
    have := hi.rings.home _ hl.index.1 hne
    omega
  have hpage {z : ℤ} (hz : z ∈ abs.ring (l - 4)) :
      IsBucket (place Seg.pages 0 (A ++ .bucket l (BitVec.allOnes 32) :: B)) l z := by
    have := (hi.mem_ring hj hl hhome).mpr hz
    rwa [Pages, hl.index.2] at this
  have hnodup := (hi.onList hj hl hhome).ring.nodup
  rw [hring] at hnodup hpage
  have hslot := slot_bounds hl hk
  have hpos : 0 < 2 ^ l := Nat.two_pow_pos l
  have haddr : b.addr = ext.membase + 512 * (cover Seg.pages A : ℤ) + (k * 2 ^ l : ℕ) :=
    congrArg Prod.fst hkey
  have hpageOf : pageOf ext b.addr = (cover Seg.pages A : ℕ) := by
    rw [pageOf, haddr]
    omega
  obtain ⟨-, hfull, -⟩ := hold.described _ (bucket_tile ..)
  by_contra hyroom
  have hybucket := hpage (z := y) (by simp at hy ⊢; tauto)
  obtain ⟨b', hb', hclass, hlow, hhigh⟩ := hi.exists_live hmem hl hybucket
  simp only at hlow hhigh
  have hpageOf' : pageOf ext b'.addr = y := by
    rw [pageOf]
    omega
  have hhead := hi.rings.head _ hl.index.1
  rw [hring, List.cons_append, List.head?_cons, Option.getD_some] at hhead
  refine hno ⟨ext, ?_, l, hl, hi.class_eq hb hl (congrArg Prod.snd hkey), hpageOf ▸ hfull, ?_,
    b', hb', hclass, ?_, ?_⟩
  · rw [hi.extents]
    exact List.mem_map_of_mem hmem
  · rw [hhead]
    exact (hold.room_iff (hpage (by simp))).mp hroom
  · rw [hpageOf, hpageOf']
    rintro rfl
    have hx := (List.nodup_cons.mp (List.perm_middle.nodup hnodup)).1
    exact hx (List.mem_append.mpr ((List.mem_append.mp hy).imp_left (List.mem_cons_of_mem a)))
  · rw [hpageOf']
    exact not_not.mp (mt (hold.room_iff hybucket).mpr hyroom)

theorem Orderly.single (ho : Orderly c s op) : Single c s op := by
  cases op with
  | alloc size => exact ho
  | free b => trivial
  | extend raw mem size => exact ho
  | write => trivial

/-- An orderly step keeps the pages with room in front. -/
theorem Inv.fronted_step (hi : Inv c s abs) (hone : abs.pairs.length = 1) (hf : abs.Fronted)
    (ho : Orderly c s op) (hstep : Step c s op s') :
    ∃ abs', Inv c s' abs' ∧ abs'.pairs.length = 1 ∧ abs'.Fronted := by
  obtain ⟨abs', hev, hi', hone'⟩ := single_spec hi hone ho.single hstep
  refine ⟨abs', hi', hone', ?_⟩
  cases hev with
  | alloc ha => exact ha.fronted hi.toHeapInv hone hf
  | free hfreed =>
    cases hstep with
    | free hb _ => exact hfreed.fronted hi.toHeapInv hone hf (hi.kept hone hb ho)
  | extend => exact absurd ho id
  | refuse => exact hf
  | write hw =>
    intro l hl x hx
    obtain ⟨x₀, hx₀, hr⟩ := getElem?_of_forall₂ hw hx
    rw [hr.layout]
    exact hf l hl x₀ hx₀

theorem reach_orderly (h : Reach (fun s op s' => Orderly c s op ∧ Step c s op s') (Initial c) s) :
    ∃ abs, Inv c s abs ∧ abs.pairs.length = 1 ∧ abs.Fronted := by
  induction h with
  | init hs =>
    obtain ⟨ext, n, hi⟩ := initial_inv hs
    exact ⟨_, hi, rfl, fun _ _ _ _ => .nil⟩
  | step _ hr ih =>
    obtain ⟨abs, hi, hone, hf⟩ := ih
    exact hi.fronted_step hone hf hr.1 hr.2

theorem Inv.listed_iff (hi : Inv c s abs) (hone : abs.pairs.length = 1) {ext : HeapExtent}
    {segs : List Seg} (hj : abs.pairs[0]? = some (ext, segs)) (hl : Bucketed l) :
    Listed s.heap ext l pg ↔ pg ∈ abs.ring (l - 4) := by
  have hhead := hi.rings.head _ hl.index.1
  have hhome : abs.ring (l - 4) ≠ [] → abs.home (l - 4) = 0 := fun hne => by
    have := hi.rings.home _ hl.index.1 hne
    omega
  have hon := hi.onList hj hl hhome
  cases hring : abs.ring (l - 4) with
  | nil =>
    rw [hring] at hhead
    exact iff_of_false (fun hlisted => hlisted.1 hhead) List.not_mem_nil
  | cons a R =>
    rw [hring] at hon hhead
    have hneg : a ≠ -1 := by
      have := (hon.pages a List.mem_cons_self).1
      omega
    rw [List.head?_cons, Option.getD_some] at hhead
    rw [Listed, hhead, hon.ring.mem_iff (List.head?_cons ..)]
    exact and_iff_right hneg

theorem Inv.headFirst (hi : Inv c s abs) (hone : abs.pairs.length = 1) (hf : abs.Fronted) :
    HeadFirst c s := by
  obtain ⟨⟨ext, segs⟩, hx⟩ := List.length_eq_one_iff.mp hone
  have hj : abs.pairs[0]? = some (ext, segs) := by rw [hx]; rfl
  have hexts : s.heap.extents = [ext] := by rw [hi.extents, hx, List.map_singleton]
  have hold : Holds c ext segs := hi.holds _ (List.mem_of_getElem? hj)
  have hhome {l : ℕ} (hl : Bucketed l) (hne : abs.ring (l - 4) ≠ []) : abs.home (l - 4) = 0 := by
    have := hi.rings.home _ hl.index.1 hne
    omega
  have hbucket {l : ℕ} {pg : ℤ} (hl : Bucketed l) (hpg : pg ∈ abs.ring (l - 4)) :
      IsBucket (place Seg.pages 0 segs) l pg := by
    have := (hi.mem_ring hj hl (hhome hl)).mpr hpg
    rwa [Pages, hl.index.2] at this
  constructor
  · intro e he l hl hfull pg hlisted
    rw [hexts] at he
    obtain rfl := List.mem_singleton.mp he
    have hpg := (hi.listed_iff hone hj hl).mp hlisted
    have hno := (hi.headFull_iff hl (hhome hl)).mp hfull
    exact not_not.mp (mt (hold.room_iff (hbucket hl hpg)).mpr (hi.ring_full hone hf hl hj hno pg hpg))
  · intro e he l hl pg hlisted hroom size hlt hsize hbs
    rw [hexts] at he
    obtain rfl := List.mem_singleton.mp he
    have hpg := (hi.listed_iff hone hj hl).mp hlisted
    have hhead : abs.HeadRoom l := by
      by_contra hno
      exact hi.ring_full hone hf hl hj hno pg hpg ((hold.room_iff (hbucket hl hpg)).mpr hroom)
    have hmax : size ≤ 2 ^ 64 - 512 := by
      by_contra hwrap
      have heq := (blockSize_wrap (by omega) hlt).symm.trans hbs
      have hsnd : 63 = l := congrArg Prod.snd heq
      have := hl.2
      omega
    have hpow : 2 ^ l < 512 := Nat.pow_lt_pow_right (by decide) hl.2
    have hready : Ready c s.heap abs size := by
      refine ⟨⟨hmax, fun x _ => HeapExtent.fits_of_lt ?_⟩, fun hno => absurd hhead (hno l hl hbs),
        fun i hi' hbs' hne => ⟨hhome hi' hne, .inl ?_⟩⟩
      · rw [hbs]
        simp only
        omega
      · obtain rfl : l = i := congrArg Prod.snd (hbs.symm.trans hbs')
        exact hhead
    obtain ⟨h', r, abs', hrun, hout, -, -⟩ := hi.alloc hready
    cases hout with
    | empty h => exact absurd h hsize
    | noRange _ hk hbs' =>
      have := congrArg Prod.fst (hbs.symm.trans hbs')
      simp only at this
      omega
    | noPage _ _ hbs' hno _ =>
      obtain rfl : l = _ := congrArg Prod.snd (hbs.symm.trans hbs')
      exact absurd hhead hno
    | range _ _ hk hbs' _ =>
      have := congrArg Prod.fst (hbs.symm.trans hbs')
      simp only at this
      omega
    | page _ _ _ hbs' hno _ =>
      obtain rfl : l = _ := congrArg Prod.snd (hbs.symm.trans hbs')
      exact absurd hhead hno
    | @hit i e' A B map R ext' _ _ hbs' hj' _ hring hmap =>
      obtain rfl : l = i := congrArg Prod.snd (hbs.symm.trans hbs')
      obtain ⟨rfl, rfl⟩ := Prod.mk.inj (Option.some.inj (hj.symm.trans hj'))
      obtain ⟨b, hb, hclass, hlow, hhigh⟩ := hi.exists_live (List.mem_of_getElem? hj) hl
        (hbucket hl (by rw [hring]; exact List.mem_cons_self))
      have hv : Seg.Valid (.bucket l map) := hold.valid _ (by simp)
      have hslot := slot_bounds hl (taken_busy hl hv.2.1 hmap).1
      have hpos : 0 < 2 ^ l := Nat.two_pow_pos l
      refine ⟨h', _, hrun, b, hb, hclass, ?_⟩
      simp only at hlow hhigh
      rw [pageOf, pageOf]
      omega

/-- The head comes first in every run over one extent in which no free buries a head. -/
theorem head_first_of_orderly
    (h : Reach (fun s op s' => Orderly c s op ∧ Step c s op s') (Initial c) s) : HeadFirst c s := by
  obtain ⟨abs, hi, hone, hf⟩ := reach_orderly h
  exact hi.headFirst hone hf

/-- Two pages of two blocks each, one of them with room. -/
theorem head_first_of_orderly_pair : ∃ s, (newHeap ⟨true, true⟩ 2 >>= fun s =>
      runs (exec ⟨true, true⟩) s [.alloc 256, .alloc 256, .alloc 256]) = some s ∧
    HeadFirst ⟨true, true⟩ s := by
  have hrun : ((newHeap ⟨true, true⟩ 2 >>= fun s =>
      runs (exec ⟨true, true⟩) s [.alloc 256, .alloc 256, .alloc 256]).map State.live) =
        some [⟨4288, 256⟩, ⟨5056, 256⟩, ⟨4800, 256⟩] := by decide
  obtain ⟨s, hs, -⟩ := Option.map_eq_some_iff.mp hrun
  have hreach : Reach (fun s op s' => Orderly ⟨true, true⟩ s op ∧ Step ⟨true, true⟩ s op s')
      (Initial ⟨true, true⟩) s := by
    apply reach_replay hs fun _ hs₀ => newHeap_initial hs₀ (by decide)
    intro op hop s s' h
    obtain rfl : op = .alloc 256 := by simpa using hop
    exact ⟨handled_of_exact rfl (by decide), h⟩
  exact ⟨s, hs, head_first_of_orderly hreach⟩

/-- Three pages of two blocks each: the third page, with one free block, goes behind the second,
which is full, and then nothing is found. -/
theorem not_head_first_of_buried : ¬ ∀ (c : Cfg) (s : State),
    Reach (fun s op s' => (∀ raw mem size, op ≠ .extend raw mem size) ∧ Step c s op s')
      (Initial c) s → HeadFirst c s := by
  intro h
  have hrun : ((newHeap ⟨true, false⟩ 3 >>= fun s => runs (exec ⟨true, false⟩) s
      [.alloc 256, .alloc 256, .alloc 256, .alloc 256, .alloc 256, .free ⟨5328, 256⟩,
        .alloc 256]).map fun s => (s.heap.buckets 4, s.heap.extents.map fun ext =>
          ((ext.pagemap 1).next, decide ((ext.pagemap 0).map = BitVec.allOnes 32)),
        (evlAllocBlockUnlocked ⟨true, false⟩ (s.heap.withUses []) 256).toOption.map Prod.snd)) =
      some (1, [(0, false)], some none) := by decide +kernel
  obtain ⟨s, hs, hval⟩ := Option.map_eq_some_iff.mp hrun
  obtain ⟨hbucket, hval⟩ := Prod.mk.inj hval
  obtain ⟨hext, hnone⟩ := Prod.mk.inj hval
  have hreach : Reach (fun s op s' => (∀ raw mem size, op ≠ .extend raw mem size) ∧
      Step ⟨true, false⟩ s op s') (Initial ⟨true, false⟩) s := by
    apply reach_replay hs fun _ hs₀ => newHeap_initial hs₀ (by decide)
    intro op hop s s' h
    refine ⟨fun raw mem size heq => ?_, h⟩
    subst heq
    simp at hop
  obtain ⟨ext, hexts, hentry⟩ := List.map_eq_singleton_iff.mp hext
  obtain ⟨hnext, hmap⟩ := Prod.mk.inj hentry
  have hlisted : Listed s.heap ext 8 0 := ⟨by rw [hbucket]; decide, 1, by rw [hbucket]; exact hnext⟩
  have hroom : ¬ Full ext 0 := by
    rw [Full]
    exact of_decide_eq_false hmap
  obtain ⟨h', a, hrun', -⟩ := (h _ _ hreach).alloc ext (by simp [hexts]) 8 ⟨by decide, by decide⟩ 0
    hlisted hroom 256 (by decide) (by decide) (by decide)
  rw [hrun'] at hnone
  cases hnone

end Runs

end Libevl.Heap
