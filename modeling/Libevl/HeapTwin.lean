import Libevl.HeapDrain

/-!
# Heaps with the same layout

With at most one free tile, the layout and the rings alone decide what an
allocation does. Two heaps which agree on both answer a sequence of allocations
in the same way, and so a drained heap answers as a new one.
-/
namespace Libevl.Heap
open AvlTree Tiling Transition

section Single

variable {A B A' B' segs : List Seg} {t : Seg} {m m' k n : ℕ}

def Seg.isFree : Seg → Bool
  | free _ => true
  | multi _ => false
  | bucket _ _ => false

/-- At most one tile is free. -/
def OneFree (segs : List Seg) : Prop := segs.countP Seg.isFree ≤ 1

theorem countP_free : (A ++ .free m :: B).countP Seg.isFree =
    A.countP Seg.isFree + B.countP Seg.isFree + 1 := by
  rw [List.countP_append, List.countP_cons_of_pos rfl, Nat.add_assoc]

/-- The only free tile is found in one way. -/
theorem OneFree.unique (h : OneFree (A ++ .free m :: B))
    (heq : A ++ .free m :: B = A' ++ .free m' :: B') : A = A' ∧ m = m' ∧ B = B' := by
  rw [OneFree, countP_free] at h
  have hA : A.countP Seg.isFree = 0 := by omega
  have hB : B.countP Seg.isFree = 0 := by omega
  have hnot {C : List Seg} (hC : C.countP Seg.isFree = 0) {x : ℕ} : Seg.free x ∉ C := by
    intro hx
    exact List.countP_eq_zero.mp hC _ hx rfl
  rcases List.append_eq_append_iff.mp heq with ⟨C, rfl, hC⟩ | ⟨C, rfl, hC⟩
  · cases C with
    | nil =>
      obtain ⟨h₁, rfl⟩ := List.cons.inj hC
      exact ⟨by simp, Seg.free.inj h₁, rfl⟩
    | cons x C =>
      obtain ⟨rfl, rfl⟩ := List.cons.inj hC
      exact absurd (by simp : Seg.free m' ∈ C ++ .free m' :: B') (hnot hB)
  · cases C with
    | nil =>
      obtain ⟨h₁, rfl⟩ := List.cons.inj hC
      exact ⟨by simp, (Seg.free.inj h₁).symm, rfl⟩
    | cons x C =>
      obtain ⟨rfl, -⟩ := List.cons.inj hC
      exact absurd (by simp : Seg.free m' ∈ A' ++ .free m' :: C) (hnot hA)

theorem OneFree.carved (h : OneFree (A ++ .free n :: B)) (ht : t.isFree = false) :
    OneFree (carved A n k t B) := by
  have hremain : (remain n k).countP Seg.isFree ≤ 1 := by
    unfold remain
    split_ifs
    · exact Nat.zero_le _
    · exact le_rfl
  rw [OneFree, countP_free] at h
  rw [OneFree, Heap.carved]
  simp only [List.countP_append, List.countP_singleton, ht]
  simp
  omega

/-- A cut of the tiles is known from its place. -/
theorem cut_unique {A A' B B' : List Seg} {t t' : Seg} (hv : ∀ s ∈ A ++ t :: B, s.Valid)
    (heq : A ++ t :: B = A' ++ t' :: B') (hcov : cover Seg.pages A = cover Seg.pages A') :
    A = A' ∧ t = t' ∧ B = B' := by
  have hlen : A = A' := by
    rcases List.append_eq_append_iff.mp heq with ⟨C, rfl, hC⟩ | ⟨C, rfl, hC⟩
    · cases C with
      | nil => simp
      | cons x C =>
        obtain ⟨rfl, -⟩ := List.cons.inj hC
        have := (hv t (by simp)).pages_pos
        simp only [cover_append, cover_cons] at hcov
        omega
    · cases C with
      | nil => simp
      | cons x C =>
        have := (hv x (by simp)).pages_pos
        simp only [cover_append, cover_cons] at hcov
        omega
  subst hlen
  obtain ⟨rfl, rfl⟩ := List.cons.inj (List.append_cancel_left heq)
  exact ⟨rfl, rfl, rfl⟩

end Single

section Layouts

variable {c : Cfg} {h : EvlHeap} {abs : Abs} {ext : HeapExtent} {segs A B : List Seg} {size k l n : ℕ}

/-- The head page of a ring has room. -/
def RingRoom (segs : List Seg) (ring : ℕ → List ℤ) (l : ℕ) : Prop :=
  ∃ y R, ring (l - 4) = y :: R ∧ Room segs l y

theorem HeapInv.headRoom_iff (hi : HeapInv c h abs) (hone : abs.pairs = [(ext, segs)])
    (hl : Bucketed l) : abs.HeadRoom l ↔ RingRoom segs abs.ring l := by
  have hzero {y : ℤ} {R : List ℤ} (hring : abs.ring (l - 4) = y :: R) :
      abs.pairs[abs.home (l - 4)]? = some (ext, segs) := by
    have hhome := hi.rings.home _ hl.index.1 (by simp [hring])
    rw [hone, List.length_singleton] at hhome
    obtain hzero : abs.home (l - 4) = 0 := by omega
    rw [hzero, hone]
    rfl
  constructor
  · rintro ⟨y, R, x, hring, hx, hroom⟩
    obtain rfl := Option.some.inj ((hzero hring).symm.trans hx)
    exact ⟨y, R, hring, hroom⟩
  · rintro ⟨y, R, hring, hroom⟩
    exact ⟨y, R, _, hring, hzero hring, hroom⟩

/-- The root of the size tree is the only free tile. -/
theorem Holds.fits_iff (hold : Holds c ext segs) (hfree : OneFree segs) :
    ext.Fits n ↔ ∀ m, .free m ∈ segs → n < 2 ^ 63 + 512 * m := by
  have htop {a : ℤ} (ha : ext.sizeTree.top = some (.node a)) :
      ∃ m, .free m ∈ segs ∧ ext.size a = 512 * m := by
    obtain ⟨ss, ⟨t, hrep, rfl⟩, hperm, -⟩ := hold.ranges.size
    rw [hrep.top] at ha
    cases t with
    | nil => cases ha
    | node b l r =>
      obtain rfl : b = a := by simpa using ha
      have hmem : b ∈ (frees ext.membase 0 segs).map Prod.fst := hperm.mem_iff.mp (by simp)
      obtain ⟨r, hr, rfl⟩ := List.mem_map.mp hmem
      have hsize := hold.ranges.sizes r hr
      obtain ⟨pre, post, hs⟩ := List.append_of_mem hr
      obtain ⟨A, m, B, rfl, -, rfl, -⟩ := exists_free hs
      exact ⟨m, by simp, hsize⟩
  have hsame {m m' : ℕ} (hm : Seg.free m ∈ segs) (hm' : Seg.free m' ∈ segs) : m = m' := by
    obtain ⟨A, B, rfl⟩ := List.append_of_mem hm
    obtain ⟨A', B', heq⟩ := List.append_of_mem hm'
    exact (hfree.unique heq).2.1
  constructor
  · intro hfit m hm
    cases ht : ext.sizeTree.top with
    | none =>
      have := hold.top_none.mp ht m hm
      have := (hold.valid _ hm).pages_pos
      simp only [Seg.pages] at this
      omega
    | some r =>
      obtain ⟨ss, ⟨t, hrep, rfl⟩, -, -⟩ := hold.ranges.size
      obtain ⟨a, rfl⟩ : ∃ a, r = .node a := by
        rw [hrep.top] at ht
        cases t with
        | nil => cases ht
        | node b l r' => exact ⟨b, by simpa using ht.symm⟩
      obtain ⟨m', hm', hsize⟩ := htop ht
      obtain rfl := hsame hm hm'
      have := hfit a ht
      omega
  · intro hall a ha
    obtain ⟨m, hm, hsize⟩ := htop ha
    rw [hsize]
    exact hall m hm

/-- The fresh pages are known from the only free tile. -/
theorem HeapInv.shiftable_iff (hi : HeapInv c h abs) (hone : abs.pairs = [(ext, segs)])
    (hfree : OneFree segs) (hk : 0 < k) (hk' : 512 * k < 2 ^ 64) (hfit : ext.Fits (512 * k)) :
    Shiftable c h (512 * k) ↔ ∀ A n B, segs = A ++ .free n :: B → k ≤ n →
      c.int ((carvedPage A n k : ℤ) * 512) = (carvedPage A n k : ℤ) * 512 := by
  have hexts : h.extents = [ext] := by rw [hi.extents, hone, List.map_singleton]
  have hold : Holds c ext segs := hi.holds (ext, segs) (by simp [hone])
  constructor
  · intro hshift A n B hsegs hkn
    rcases hold.reserve hk hk' hfit with ⟨hno, -⟩ | ⟨A', n', B', -, hsegs', -, -, ⟨a, hfind, haddr⟩, -⟩
    · have := hno n (by simp [hsegs])
      omega
    · rw [hsegs] at hfree
      obtain ⟨rfl, rfl, rfl⟩ := hfree.unique (hsegs.symm.trans hsegs')
      have := hshift [] ext [] a hexts (by simp) hfind
      rw [haddr] at this
      exact this
  · intro hall pre e post a hpre _ hfind
    rw [hexts] at hpre
    obtain ⟨rfl, rfl, rfl⟩ : pre = [] ∧ e = ext ∧ post = [] := by
      cases pre with
      | nil =>
        obtain ⟨rfl, rfl⟩ := List.cons.inj hpre
        exact ⟨rfl, rfl, rfl⟩
      | cons x pre => simp at hpre
    rcases hold.reserve hk hk' hfit with ⟨-, hnone⟩ | ⟨A', n', B', -, hsegs', hkn, -, ⟨a', hfind', haddr⟩, -⟩
    · cases Except.ok.inj (hfind.symm.trans hnone)
    · obtain rfl := Option.some.inj (Except.ok.inj (hfind.symm.trans hfind'))
      rw [haddr]
      exact hall A' n' B' hsegs' hkn

/-- The requests that a heap with one free tile handles. -/
def LayoutHandles (c : Cfg) (segs : List Seg) (ring : ℕ → List ℤ) (size : ℕ) : Prop :=
  size ≤ 2 ^ 64 - 512 ∧ (∀ m, .free m ∈ segs → (blockSize size).1 < 2 ^ 63 + 512 * m) ∧
    ((512 ≤ (blockSize size).1 ∨ ¬ RingRoom segs ring (blockSize size).2) →
      ∀ A n B, segs = A ++ .free n :: B → alignTo (blockSize size).1 512 ≤ 512 * n →
        c.int ((carvedPage A n (alignTo (blockSize size).1 512 / 512) : ℤ) * 512) =
          (carvedPage A n (alignTo (blockSize size).1 512 / 512) : ℤ) * 512)

theorem HeapInv.handled_iff (hi : HeapInv c h abs) (hone : abs.pairs = [(ext, segs)])
    (hfree : OneFree segs) : Handled c h size ↔ LayoutHandles c segs abs.ring size := by
  have hexts : h.extents = [ext] := by rw [hi.extents, hone, List.map_singleton]
  have hold : Holds c ext segs := hi.holds (ext, segs) (by simp [hone])
  have hfits : RequestFits h size ↔ size ≤ 2 ^ 64 - 512 ∧
      ∀ m, .free m ∈ segs → (blockSize size).1 < 2 ^ 63 + 512 * m := by
    rw [RequestFits, hexts, List.forall_mem_singleton, hold.fits_iff hfree]
  have hiff : Handled c h size ↔ RequestFits h size ∧
      ((512 ≤ (blockSize size).1 ∨ HeadFull h (blockSize size).2) →
        Shiftable c h (alignTo (blockSize size).1 512)) :=
    ⟨fun hh => ⟨hh.fits, hh.shift⟩, fun hh => ⟨hh.1, hh.2⟩⟩
  rw [hiff, hfits, LayoutHandles, and_assoc]
  refine and_congr_right fun hmax => and_congr_right fun hm => ?_
  have hfit : ext.Fits (blockSize size).1 := (hold.fits_iff hfree).mpr hm
  rcases (blockSize_cases hmax).2 with ⟨l, hl, hbs⟩ | ⟨k, l, hk, hk', hbs⟩
  · have hlt : ¬ 512 ≤ 2 ^ l := by
      have : 2 ^ l < 512 := Nat.pow_lt_pow_right (by decide) hl.2
      omega
    have hhome : abs.ring (l - 4) ≠ [] → abs.home (l - 4) = 0 := fun hne => by
      have := hi.rings.home _ hl.index.1 hne
      rw [hone, List.length_singleton] at this
      omega
    have hone' : Shiftable c h (512 * 1) ↔ _ := hi.shiftable_iff hone hfree one_pos (by decide)
      (HeapExtent.fits_of_lt (by decide))
    simp only [hbs, hlt, false_or, alignTo_bucket hl, hi.headFull_iff hl hhome,
      hi.headRoom_iff hone hl]
    refine imp_congr_right fun _ => hone'.trans ?_
    refine forall₃_congr fun A n B => imp_congr_right fun _ => ?_
    exact ⟨fun h hn => h (by omega), fun h hn => h (by omega)⟩
  · have hle : 512 ≤ 512 * k := by omega
    have hdiv : 512 * k / 512 = k := by omega
    rw [hbs] at hfit
    simp only [hbs, hle, true_or, true_imp_iff, alignTo_pages hk', hdiv]
    refine (hi.shiftable_iff hone hfree hk (by omega) hfit).trans ?_
    refine forall₃_congr fun A n B => imp_congr_right fun _ => ?_
    exact ⟨fun h hn => h (by omega), fun h hn => h (by omega)⟩

end Layouts

section Outcomes

variable {c : Cfg} {abs abs' : Abs} {size k l : ℕ} {r : Option ℤ}

theorem pages_or_bucket {k l l' : ℕ} (hk : 0 < k) (hbs : blockSize size = (512 * k, l)) (hl : Bucketed l')
    (hbs' : blockSize size = (2 ^ l', l')) : False := by
  have hfst : 512 * k = 2 ^ l' := congrArg Prod.fst (hbs.symm.trans hbs')
  have hlt : 2 ^ l' < 512 := Nat.pow_lt_pow_right (by decide) hl.2
  omega

/-- `k` pages are carved from a free tile, and the layout then changes by `f`, or no free tile has
room for them. -/
def Served (c : Cfg) (abs : Abs) (k : ℕ) (p : Seg) (f : ℕ → ℕ → Abs → Abs) (r : Option ℤ)
    (abs' : Abs) : Prop :=
  (r = none ∧ abs' = abs ∧ ∀ x ∈ abs.pairs, NoRoom k x.2) ∨
    ∃ a j ext A n B ext', r = some a ∧ Found c abs k j ext A n B ∧
      abs' = f j (carvedPage A n k) (abs.set j ext' (carved A n k p B))

/-- An allocation of whole pages. -/
theorem Allocated.of_pages (h : Allocated c abs size r abs') (hsize : size ≠ 0) (hk : 0 < k)
    (hbs : blockSize size = (512 * k, l)) : Served c abs k (.multi k) (fun _ _ x => x) r abs' := by
  cases h with
  | empty h => exact absurd h hsize
  | @noRange k' l' _ hk' hbs' hno =>
    obtain rfl : k = k' := by
      have : 512 * k = 512 * k' := congrArg Prod.fst (hbs.symm.trans hbs')
      omega
    exact .inl ⟨rfl, rfl, hno⟩
  | noPage _ hl hbs' => exact (pages_or_bucket hk hbs hl hbs').elim
  | @range k' l' j n ext A B ext' _ hk' hbs' hf =>
    obtain rfl : k = k' := by
      have : 512 * k = 512 * k' := congrArg Prod.fst (hbs.symm.trans hbs')
      omega
    exact .inr ⟨_, j, ext, A, n, B, ext', rfl, hf, rfl⟩
  | page _ _ hl hbs' => exact (pages_or_bucket hk hbs hl hbs').elim
  | hit _ _ hl hbs' => exact (pages_or_bucket hk hbs hl hbs').elim

/-- An allocation that finds no room in its list. -/
theorem Allocated.of_full (h : Allocated c abs size r abs') (hsize : size ≠ 0) (hl : Bucketed l)
    (hbs : blockSize size = (2 ^ l, l)) (hno : ¬ abs.HeadRoom l) :
    Served c abs 1 (freshPage l)
      (fun j page x => x.relink (l - 4) j (withFresh (page : ℕ) (abs.ring (l - 4)))) r abs' := by
  cases h with
  | empty h => exact absurd h hsize
  | noRange _ hk hbs' => exact (pages_or_bucket hk hbs' hl hbs).elim
  | noPage _ _ hbs' _ hnone => exact .inl ⟨rfl, rfl, hnone⟩
  | range _ _ hk hbs' => exact (pages_or_bucket hk hbs' hl hbs).elim
  | @page l' j n ext A B ext' _ _ hbs' _ hf =>
    obtain rfl : l = l' := congrArg Prod.snd (hbs.symm.trans hbs')
    exact .inr ⟨_, j, ext, A, n, B, ext', rfl, hf, rfl⟩
  | @hit l' ext A B map R ext' _ _ hbs' hj hhome hring hmap =>
    obtain rfl : l = l' := congrArg Prod.snd (hbs.symm.trans hbs')
    exact absurd ⟨_, R, _, hring, hhome ▸ hj, _, map, bucket_tile .., rfl, hmap⟩ hno

/-- An allocation that takes a block of the head page. -/
theorem Allocated.of_room (h : Allocated c abs size r abs') (hsize : size ≠ 0) (hl : Bucketed l)
    (hbs : blockSize size = (2 ^ l, l)) (hroom : abs.HeadRoom l) :
    ∃ a ext A map B R ext', r = some a ∧ abs.pairs[0]? = some (ext, A ++ .bucket l map :: B) ∧
      abs.ring (l - 4) = ((cover Seg.pages A : ℕ) : ℤ) :: R ∧
      abs' = (abs.set 0 ext' (A ++ .bucket l (taken map) :: B)).relink (l - 4) 0
        (rotateFull (abs.ring (l - 4)) (taken map)) := by
  cases h with
  | empty h => exact absurd h hsize
  | noRange _ hk hbs' => exact (pages_or_bucket hk hbs' hl hbs).elim
  | noPage _ _ hbs' hno =>
    obtain rfl : l = _ := congrArg Prod.snd (hbs.symm.trans hbs')
    exact absurd hroom hno
  | range _ _ hk hbs' => exact (pages_or_bucket hk hbs' hl hbs).elim
  | page _ _ _ hbs' hno =>
    obtain rfl : l = _ := congrArg Prod.snd (hbs.symm.trans hbs')
    exact absurd hroom hno
  | @hit l' ext A B map R ext' _ _ hbs' hj _ hring _ =>
    obtain rfl : l = l' := congrArg Prod.snd (hbs.symm.trans hbs')
    exact ⟨_, ext, A, map, B, R, ext', rfl, hj, hring, rfl⟩

/-- Two heaps over one extent each, with the same tiles, at most one of them free, and the same
rings. -/
structure Similar (abs₁ abs₂ : Abs) : Prop where
  pairs : ∃ e₁ e₂ segs, abs₁.pairs = [(e₁, segs)] ∧ abs₂.pairs = [(e₂, segs)] ∧ OneFree segs
  ring : ∀ i < 5, abs₁.ring i = abs₂.ring i

variable {h₁ h₂ : EvlHeap} {abs₁ abs₂ abs₁' abs₂' : Abs} {r₁ r₂ : Option ℤ}

theorem Similar.set {e₁ e₂ : HeapExtent} {segs : List Seg} (hsim : Similar abs₁ abs₂)
    (hfree : OneFree segs) : Similar (abs₁.set 0 e₁ segs) (abs₂.set 0 e₂ segs) := by
  obtain ⟨⟨e₁', e₂', segs', hp₁, hp₂, -⟩, hring⟩ := hsim
  exact ⟨⟨e₁, e₂, segs, by rw [Abs.set, hp₁]; rfl, by rw [Abs.set, hp₂]; rfl, hfree⟩, hring⟩

theorem Similar.relink {L : List ℤ} {i : ℕ} (hsim : Similar abs₁ abs₂) :
    Similar (abs₁.relink i 0 L) (abs₂.relink i 0 L) := by
  refine ⟨hsim.pairs, fun j hj => ?_⟩
  by_cases hji : j = i
  · simp only [Abs.relink, hji, Function.update_self]
  · simp only [Abs.relink, Function.update_of_ne hji]
    exact hsim.ring j hj

theorem Found.eq {e : HeapExtent} {segs : List Seg} {j n : ℕ} {ext : HeapExtent} {A B : List Seg}
    (hf : Found c abs k j ext A n B) (hp : abs.pairs = [(e, segs)]) :
    j = 0 ∧ segs = A ++ .free n :: B := by
  have hplace := hf.place
  rw [hp] at hplace
  have hlt := (List.getElem?_eq_some_iff.mp hplace).1
  obtain rfl : j = 0 := by
    rw [List.length_singleton] at hlt
    omega
  exact ⟨rfl, (Prod.mk.inj (Option.some.inj hplace)).2⟩

/-- Heaps with the same layout serve pages in the same way. -/
theorem Served.similar {p : Seg} {f : ℕ → ℕ → Abs → Abs} (hsim : Similar abs₁ abs₂)
    (hp : p.isFree = false)
    (hf : ∀ page a b, Similar a b → Similar (f 0 page a) (f 0 page b))
    (h₁ : Served c abs₁ k p f r₁ abs₁') (h₂ : Served c abs₂ k p f r₂ abs₂') :
    r₁.isSome = r₂.isSome ∧ Similar abs₁' abs₂' := by
  obtain ⟨e₁, e₂, segs, hp₁, hp₂, hfree⟩ := hsim.pairs
  have hnoRoom {A B : List Seg} {n : ℕ} (hsegs : segs = A ++ .free n :: B) (hkn : k ≤ n)
      (hno : NoRoom k segs) : False := by
    have := hno n (by simp [hsegs])
    omega
  rcases h₁ with ⟨rfl, rfl, hno₁⟩ | ⟨a₁, j₁, x₁, A₁, n₁, B₁, x₁', rfl, hf₁, rfl⟩ <;>
    rcases h₂ with ⟨rfl, rfl, hno₂⟩ | ⟨a₂, j₂, x₂, A₂, n₂, B₂, x₂', rfl, hf₂, rfl⟩
  · exact ⟨rfl, hsim⟩
  · exact (hnoRoom (hf₂.eq hp₂).2 hf₂.fits (hno₁ (e₁, segs) (by simp [hp₁]))).elim
  · exact (hnoRoom (hf₁.eq hp₁).2 hf₁.fits (hno₂ (e₂, segs) (by simp [hp₂]))).elim
  · obtain ⟨rfl, hsegs₁⟩ := hf₁.eq hp₁
    obtain ⟨rfl, hsegs₂⟩ := hf₂.eq hp₂
    rw [hsegs₁] at hfree
    obtain ⟨rfl, rfl, rfl⟩ := hfree.unique (hsegs₁.symm.trans hsegs₂)
    exact ⟨rfl, hf _ _ _ (hsim.set (hfree.carved hp))⟩

/-- Heaps with the same layout answer in the same way, and have the same layout again. -/
theorem Allocated.similar (hi₁ : HeapInv c h₁ abs₁) (hi₂ : HeapInv c h₂ abs₂)
    (hsim : Similar abs₁ abs₂) (hmax : size ≤ 2 ^ 64 - 512) (ha₁ : Allocated c abs₁ size r₁ abs₁')
    (ha₂ : Allocated c abs₂ size r₂ abs₂') : r₁.isSome = r₂.isSome ∧ Similar abs₁' abs₂' := by
  obtain ⟨e₁, e₂, segs, hp₁, hp₂, hfree⟩ := hsim.pairs
  by_cases hsize : size = 0
  · have hempty {abs abs' : Abs} {r : Option ℤ} (ha : Allocated c abs size r abs') :
        r = none ∧ abs' = abs := by
      cases ha <;> first | exact ⟨rfl, rfl⟩ | exact absurd hsize ‹size ≠ 0›
    obtain ⟨rfl, rfl⟩ := hempty ha₁
    obtain ⟨rfl, rfl⟩ := hempty ha₂
    exact ⟨rfl, hsim⟩
  rcases (blockSize_cases hmax).2 with ⟨l, hl, hbs⟩ | ⟨k, l, hk, -, hbs⟩
  · have hrings := hsim.ring _ hl.index.1
    have hheads : abs₁.HeadRoom l ↔ abs₂.HeadRoom l := by
      rw [hi₁.headRoom_iff hp₁ hl, hi₂.headRoom_iff hp₂ hl, RingRoom, RingRoom, hrings]
    by_cases hroom : abs₁.HeadRoom l
    · obtain ⟨a₁, x₁, A₁, map₁, B₁, R₁, x₁', rfl, hj₁, hring₁, rfl⟩ := ha₁.of_room hsize hl hbs hroom
      obtain ⟨a₂, x₂, A₂, map₂, B₂, R₂, x₂', rfl, hj₂, hring₂, rfl⟩ :=
        ha₂.of_room hsize hl hbs (hheads.mp hroom)
      have hv := (hi₁.holds _ (List.mem_of_getElem? hj₁)).valid
      rw [hp₁] at hj₁
      rw [hp₂] at hj₂
      have hsegs₁ : segs = A₁ ++ .bucket l map₁ :: B₁ := (Prod.mk.inj (Option.some.inj hj₁)).2
      have hsegs₂ : segs = A₂ ++ .bucket l map₂ :: B₂ := (Prod.mk.inj (Option.some.inj hj₂)).2
      have hcov : cover Seg.pages A₁ = cover Seg.pages A₂ := by
        rw [hring₁, hring₂] at hrings
        have := (List.cons.inj hrings).1
        omega
      obtain ⟨rfl, htile, rfl⟩ := cut_unique hv (hsegs₁.symm.trans hsegs₂) hcov
      obtain ⟨-, rfl⟩ := Seg.bucket.inj htile
      rw [hrings]
      refine ⟨rfl, (hsim.set ?_).relink⟩
      rw [hsegs₁, OneFree, List.countP_append, List.countP_cons_of_neg (by simp [Seg.isFree])] at hfree
      rw [OneFree, List.countP_append, List.countP_cons_of_neg (by simp [Seg.isFree])]
      exact hfree
    · have hfull := ha₂.of_full hsize hl hbs (mt hheads.mpr hroom)
      rw [← hrings] at hfull
      exact (ha₁.of_full hsize hl hbs hroom).similar hsim rfl (fun _ _ _ hs => hs.relink) hfull
  · exact (ha₁.of_pages hsize hk hbs).similar hsim rfl (fun _ _ _ hs => hs)
      (ha₂.of_pages hsize hk hbs)

end Outcomes

section Answers

variable {c : Cfg} {s s' s₁ s₂ : State} {abs₁ abs₂ : Abs} {raw raw' : HeapExtent} {mem : ℤ}
  {size : ℕ} {sizes : List ℕ} {rs : List Bool} {h₀ : EvlHeap}

/-- The requests of `sizes` are handled, and granted or refused as `rs` says. -/
inductive Answers (c : Cfg) : State → List ℕ → List Bool → Prop
  | nil {s : State} : Answers c s [] []
  | cons {s : State} {size : ℕ} {sizes : List ℕ} {h' : EvlHeap} {r : Option ℤ} {rs : List Bool} :
      Handled c s.heap size →
      evlAllocBlockUnlocked c (s.heap.withUses []) size = .ok (h', r) →
      Answers c ⟨h', handOut r size s.live⟩ sizes rs →
      Answers c s (size :: sizes) (r.isSome :: rs)

theorem LayoutHandles.congr {segs : List Seg} {ring ring' : ℕ → List ℤ}
    (h : LayoutHandles c segs ring size) (hr : ∀ i < 5, ring' i = ring i) :
    LayoutHandles c segs ring' size := by
  obtain ⟨hmax, hfits, hshift⟩ := h
  refine ⟨hmax, hfits, fun hor => hshift ?_⟩
  rcases (blockSize_cases hmax).2 with ⟨l, hl, hbs⟩ | ⟨k, l, hk, -, hbs⟩
  · rw [RingRoom, hbs, ← hr _ hl.index.1, ← RingRoom]
    rw [hbs] at hor
    exact hor
  · rw [hbs]
    exact .inl (show 512 ≤ 512 * k by omega)

/-- Heaps with the same layout answer a sequence of allocations in the same way. -/
theorem Answers.similar (hi₁ : Inv c s₁ abs₁) (hi₂ : Inv c s₂ abs₂) (hsim : Similar abs₁ abs₂)
    (ha : Answers c s₁ sizes rs) : Answers c s₂ sizes rs := by
  induction ha generalizing s₂ abs₁ abs₂ with
  | nil => exact .nil
  | @cons s₁ size sizes h' r rs hh hrun _ ih =>
    obtain ⟨e₁, e₂, segs, hp₁, hp₂, hfree⟩ := hsim.pairs
    have hone {x : HeapExtent × List Seg} {abs : Abs} (hp : abs.pairs = [x]) :
        abs.pairs.length = 1 := by rw [hp]; rfl
    have hh₂ : Handled c s₂.heap size := by
      refine (hi₂.handled_iff hp₂ hfree).mpr ?_
      exact ((hi₁.handled_iff hp₁ hfree).mp hh).congr fun i hi5 => (hsim.ring i hi5).symm
    obtain ⟨h₁', r₁, abs₁', hrun₁, hout₁, hi₁', -⟩ :=
      hi₁.alloc (hi₁.ready hh (hi₁.inFirst (hone hp₁)))
    obtain ⟨h₂', r₂, abs₂', hrun₂, hout₂, hi₂', -⟩ :=
      hi₂.alloc (hi₂.ready hh₂ (hi₂.inFirst (hone hp₂)))
    obtain ⟨rfl, rfl⟩ := Prod.mk.inj (Except.ok.inj (hrun.symm.trans hrun₁))
    obtain ⟨hsome, hsim'⟩ :=
      hout₁.similar hi₁.toHeapInv hi₂.toHeapInv hsim hh.fits.1 hout₂
    rw [hsome]
    exact .cons hh₂ hrun₂ (ih hi₁' hi₂' hsim')

/-- A heap that was set up over the area. -/
def InitialAt (c : Cfg) (raw : HeapExtent) (mem : ℤ) (size : ℕ) (s : State) : Prop :=
  evlInitHeapUnlocked c raw mem size = .ok (some s.heap) ∧ s.live = []

theorem init_usable {h : EvlHeap} (hrun : evlInitHeapUnlocked c raw mem size = .ok (some h)) :
    h.usableSize = sizeSub size (overheadOf size) := by
  obtain ⟨x, hx, hrun⟩ := bind_eq_ok.mp hrun
  cases x with
  | none => cases hrun
  | some x =>
    obtain rfl := Option.some.inj (Except.ok.inj hrun)
    simp only [addExtent] at hx
    split_ifs at hx
    · cases hx
    · cases hx
    · obtain ⟨e, -, he⟩ := bind_eq_ok.mp hx
      obtain rfl := Option.some.inj (Except.ok.inj he)
      rfl

/-- Once all blocks are freed, in any order, the heap is drained: each free returns 0, and later
allocations are answered as by a new heap over the same area. -/
theorem drained_as_new (ha : Area mem size)
    (h : Reach (fun s op s' => Single c s op ∧ Step c s op s') (InitialAt c raw mem size) s)
    {bs : List Block} (hbs : bs.Perm s.live)
    (hnew : evlInitHeapUnlocked c raw' mem size = .ok (some h₀)) :
    ∃ s', Frees c s bs s' ∧ Drained s' ∧
      ∀ sizes rs, Answers c s' sizes rs ↔ Answers c ⟨h₀, []⟩ sizes rs := by
  obtain ⟨abs, hi, hone, husable⟩ := reach_usable (n := sizeSub size (overheadOf size))
    (fun s hs => ⟨⟨raw, mem, size, ha, hs.1, hs.2⟩, init_usable hs.1⟩) h
  obtain ⟨s', abs', hfrees, hi', hone', hlive, hcov⟩ := hi.frees hone hbs
  obtain ⟨ext, n, hpairs, hring⟩ := hi'.layout_of_idle hone' hlive
  obtain ⟨ext₀, n₀, hi₀⟩ := initial_inv (c := c) (s := ⟨h₀, []⟩) ⟨raw', mem, size, ha, hnew, rfl⟩
  have hn : n = n₀ := by
    have h₁ := hi.toHeapInv.usable_covers
    have h₂ := hi₀.toHeapInv.usable_covers
    rw [husable, ← hcov, Abs.covers, hpairs] at h₁
    rw [init_usable hnew, h₁] at h₂
    simpa [Abs.covers, freshAbs, Seg.pages] using h₂
  subst hn
  have hsim : Similar abs' (freshAbs ext₀ n) :=
    ⟨⟨ext, ext₀, [.free n], hpairs, rfl, le_rfl⟩, hring⟩
  have hsim' : Similar (freshAbs ext₀ n) abs' :=
    ⟨⟨ext₀, ext, [.free n], rfl, hpairs, le_rfl⟩, fun i hi5 => (hring i hi5).symm⟩
  exact ⟨s', hfrees, hi'.drained hone' hlive,
    fun sizes rs => ⟨Answers.similar hi' hi₀ hsim, Answers.similar hi₀ hi' hsim'⟩⟩

theorem newHeap_at {n : ℕ} (hs : newHeap c n = some s) :
    InitialAt c blank 4096 (rawSize n) s := by
  obtain ⟨h, hinit, rfl⟩ := newHeap_eq_some hs
  exact ⟨hinit, rfl⟩

/-- A bucketed block and a block of two pages, freed in the order in which they came. -/
theorem drained_as_new_pair : ∃ s s', (newHeap ⟨true, true⟩ 3 >>= fun s =>
      runs (exec ⟨true, true⟩) s [.alloc 100, .alloc 600]) = some s ∧
    Frees ⟨true, true⟩ s [⟨5328, 100⟩, ⟨4304, 600⟩] s' ∧ Drained s' := by
  have hrun : ((newHeap ⟨true, true⟩ 3 >>= fun s =>
      runs (exec ⟨true, true⟩) s [.alloc 100, .alloc 600]).map State.live) =
        some [⟨4304, 600⟩, ⟨5328, 100⟩] := by decide
  obtain ⟨s, hs, hlive⟩ := Option.map_eq_some_iff.mp hrun
  obtain ⟨s₀, hs₀, -⟩ := Option.bind_eq_some_iff.mp hs
  have hsmall : ∀ op ∈ [Op.alloc 100, .alloc 600], op.small = true := by decide
  have hreach : Reach (fun s op s' => Single ⟨true, true⟩ s op ∧ Step ⟨true, true⟩ s op s')
      (InitialAt ⟨true, true⟩ blank 4096 (rawSize 3)) s :=
    reach_replay hs (fun _ hs₀ => newHeap_at hs₀)
      fun op hop _ _ h => ⟨single_of_small rfl (hsmall op hop), h⟩
  have hperm : [⟨5328, 100⟩, ⟨4304, 600⟩].Perm s.live := by
    rw [hlive]
    exact .swap ..
  have harea : Area 4096 (rawSize 3) := ⟨by decide, by decide⟩
  obtain ⟨s', hfrees, hdrained, -⟩ := drained_as_new harea hreach hperm (newHeap_at hs₀).1
  exact ⟨s, s', hs, hfrees, hdrained⟩

/-- The block of 2^63 + 512 bytes that a heap of one page grants cannot be freed. -/
theorem not_drained_huge : ¬ ∀ (c : Cfg) (raw : HeapExtent) (mem : ℤ) (size : ℕ) (s : State),
    Area mem size →
    Reach (fun s op s' => (∀ raw mem size, op ≠ .extend raw mem size) ∧ Step c s op s')
      (InitialAt c raw mem size) s →
    ∀ bs, bs.Perm s.live → ∃ s', Frees c s bs s' ∧ Drained s' := by
  intro h
  have hrun : ((newHeap ⟨true, false⟩ 1 >>= fun s =>
      runs (exec ⟨true, false⟩) s [.alloc (2 ^ 63 + 512)]).map fun s => (s.live,
        (evlFreeBlockUnlocked ⟨true, false⟩ (s.heap.withUses []) 4272).toOption.isSome)) =
        some ([⟨4272, 2 ^ 63 + 512⟩], false) := by decide
  obtain ⟨s, hs, hval⟩ := Option.map_eq_some_iff.mp hrun
  obtain ⟨hlive, hfail⟩ := Prod.mk.inj hval
  have hreach : Reach (fun s op s' => (∀ raw mem size, op ≠ .extend raw mem size) ∧
      Step ⟨true, false⟩ s op s') (InitialAt ⟨true, false⟩ blank 4096 (rawSize 1)) s := by
    apply reach_replay hs fun _ hs₀ => newHeap_at hs₀
    intro op hop s s' h
    obtain rfl := List.mem_singleton.mp hop
    exact ⟨fun _ _ _ heq => (nomatch heq), h⟩
  have harea : Area 4096 (rawSize 1) := ⟨by decide, by decide⟩
  obtain ⟨s', hfrees, -⟩ := h _ _ _ _ _ harea hreach _ (.refl _)
  rw [hlive] at hfrees
  cases hfrees with
  | cons _ hfree _ =>
    simp only at hfree
    rw [hfree] at hfail
    cases hfail

end Answers

end Libevl.Heap
