import Libevl.HeapChecks

/-!
# Checking a block before it is freed

`evl_check_block_unlocked` and `evl_free_block_unlocked` look up a pointer each on
its own. With page marking, they come to the same conclusion about every pointer,
and the size that a check tells is the one that a free takes back.
-/
namespace Libevl.Heap
open AvlTree Tiling Transition

/-- `evl_check_block_unlocked`. -/
def evlCheckBlockUnlocked (c : Cfg) (h : EvlHeap) (block : ℤ) : Except Fault ℤ := do
  match findExtent block h.extents with
  | none => return -einval
  | some (_, ext) =>
    let pgoff := (block - ext.membase).toNat
    let pg : ℤ := (pgoff / 512 : ℕ)
    if ← pageIsValid c ext pg then
      let e ← ext.entry pg
      if e.type = pageList then return e.bsize
      else
        let bsize := 1 <<< e.type
        if pgoff % 512 % bsize ≠ 0 then return -einval
        else return bsize
    else return -einval

/-- A check tells a size and a free takes it back, or both are refused. -/
def Agrees (c : Cfg) (h : EvlHeap) (a : ℤ) : Prop :=
  (∃ (b : ℕ) (h' : EvlHeap), evlCheckBlockUnlocked c h a = .ok b ∧
    evlFreeBlockUnlocked c h a = .ok (h', 0) ∧ h'.usedSize + b = h.usedSize) ∨
  (evlCheckBlockUnlocked c h a = .ok (-einval) ∧
    ∃ h', evlFreeBlockUnlocked c h a = .ok (h', -einval))

section Lookups

variable {c : Cfg} {h : EvlHeap} {s : State} {abs : Abs} {a : ℤ} {ext : HeapExtent}
  {segs : List Seg} {q l n k pg j : ℕ} {t : Seg} {map : BitVec 32}

theorem check_invalid (hc : c.debug = true) (hfind : findExtent a h.extents = some (j, ext))
    (hpg : (a - ext.membase).toNat / 512 = pg) (hp : ext.HasPage pg)
    (htype : (ext.pagemap pg).type = pageFree ∨ (ext.pagemap pg).type = pageCont) :
    evlCheckBlockUnlocked c h a = .ok (-einval) := by
  have hvalid := pageIsValid_not hc hp htype
  simp only [evlCheckBlockUnlocked, hfind, hpg, hvalid, ok_bind]
  rfl

theorem check_list (hfind : findExtent a h.extents = some (j, ext))
    (hpg : (a - ext.membase).toNat / 512 = pg) (hp : ext.HasPage pg)
    (htype : (ext.pagemap pg).type = pageList) :
    evlCheckBlockUnlocked c h a = .ok (ext.pagemap pg).bsize := by
  have hvalid : pageIsValid c ext pg = .ok true := by
    apply pageIsValid_of_type hp
    · rw [htype]
      decide
    · rw [htype]
      decide
  simp only [evlCheckBlockUnlocked, hfind, hpg, hvalid, ok_bind, if_true, entry_eq hp, htype]
  rfl

theorem check_bucket (hb : Bucketed l) (hfind : findExtent a h.extents = some (j, ext))
    (hpg : (a - ext.membase).toNat / 512 = pg) (hp : ext.HasPage pg)
    (htype : (ext.pagemap pg).type = l) : evlCheckBlockUnlocked c h a =
      .ok (if (a - ext.membase).toNat % 512 % 2 ^ l ≠ 0 then -einval else (2 ^ l : ℕ)) := by
  have hvalid : pageIsValid c ext pg = .ok true := pageIsValid_bucket hb hp htype
  have hlist := hb.ne_pageList
  simp only [evlCheckBlockUnlocked, hfind, hpg, hvalid, ok_bind, if_true, entry_eq hp, htype, hlist,
    if_false, Nat.one_shiftLeft]
  split_ifs
  · rfl
  · rfl

/-- A free of a live block takes back its size. -/
theorem Inv.free_used (hi : Inv c s abs) {b : Block} (hb : b ∈ s.live) :
    ∃ h', evlFreeBlockUnlocked c (s.heap.withUses []) b.addr = .ok (h', 0) ∧
      h'.usedSize + b.key.2 = s.heap.usedSize := by
  obtain ⟨h', abs', hrun, -, hi', -⟩ := hi.free hb
  refine ⟨h', hrun, ?_⟩
  have hsum : (s.live.map fun b => b.key.2).sum =
      b.key.2 + ((s.live.erase b).map fun b => b.key.2).sum := by
    rw [((List.perm_cons_erase hb).map fun b => b.key.2).sum_eq, List.map_cons, List.sum_cons]
  have hused := hi.used_eq.1
  have hused' : h'.usedSize = ((s.live.erase b).map fun b => b.key.2).sum := hi'.used_eq.1
  omega

/-- A free of an idle slot writes the map of its page as it is. -/
theorem free_idle {A B : List Seg} {P Q : List ℤ} (ho : OnPage c h abs j ext A B l map P Q)
    (hk : k < slots l) (hidle : k ∉ busy l map) :
    ∃ h', evlFreeBlockUnlocked c h (ext.membase + 512 * (cover Seg.pages A : ℤ) + (k * 2 ^ l : ℕ)) =
      .ok (h', 0) ∧ h'.usedSize = sizeSub h.usedSize (2 ^ l) := by
  obtain ⟨hb, hpad, hbusy⟩ := ho.valid
  have hp := ho.holds.hasPage (bucket_tile ..)
  obtain ⟨-, hmap, -⟩ := ho.holds.described _ (bucket_tile ..)
  have hs := slots_range hb
  have hbit : map.getLsbD k = false := by
    by_contra hset
    exact hidle (mem_busy.mpr ⟨hk, by simpa using hset⟩)
  have hsame : map &&& ~~~ (1#32 <<< k) = map := by
    apply BitVec.eq_of_getLsbD_eq
    intro i hi
    rw [getLsbD_clearBit (by omega) hi]
    by_cases hik : i = k
    · rw [hik, hbit, Bool.false_and]
    · rw [bne_iff_ne.mpr hik, Bool.and_true]
  have hfull : map ≠ BitVec.allOnes 32 := by
    rintro rfl
    rw [BitVec.getLsbD_allOnes, decide_eq_true (by omega)] at hbit
    cases hbit
  have hempty : map ≠ ~~~ genBlockMask l := by
    intro h
    obtain ⟨k', hk'⟩ := List.exists_mem_of_ne_nil _ hbusy
    have := (idle_iff hb hpad).mp h k' (mem_busy.mp hk').1
    rw [(mem_busy.mp hk').2] at this
    cases this
  rw [free_unfold ho hk]
  simp only [freeBucketed, entry_eq hp, ok_bind, hmap, setMap_eq hp, hsame, hempty, hfull, if_false]
  exact ⟨_, rfl, rfl⟩

theorem Inv.le_used (hi : Inv c s abs) {b : Block} (hb : b ∈ s.live) : b.key.2 ≤ s.heap.usedSize := by
  rw [hi.used_eq.1]
  exact List.single_le_sum (fun _ _ => Nat.zero_le _) _ (List.mem_map_of_mem hb)

/-- The two agree about every address in a tile. -/
theorem Inv.agrees_tile (hc : c.debug = true) (hi : Inv c s abs) (hone : abs.pairs = [(ext, segs)])
    {p : ℕ} (ht : (q, t) ∈ place Seg.pages 0 segs) (hp : q ≤ p ∧ p < q + t.pages)
    (ha : ext.membase + 512 * (p : ℤ) ≤ a ∧ a < ext.membase + 512 * (p : ℤ) + 512) :
    Agrees c (s.heap.withUses []) a := by
  have hj : abs.pairs[0]? = some (ext, segs) := by rw [hone]; rfl
  have hold : Holds c ext segs := hi.holds (ext, segs) (List.mem_of_getElem? hj)
  have hbounds := place_bounds ht
  have htotal := hold.total
  have hmost := hold.bound
  obtain ⟨hhas, hlookup⟩ := hi.lookup_tile hone ht hp
  obtain ⟨hfind, hpage⟩ := hlookup a ha
  have hdescribed := hold.described _ ht
  have hv := hold.valid t (mem_of_place ht)
  have hinvalid (htype : (ext.pagemap p).type = pageFree ∨ (ext.pagemap p).type = pageCont) :
      Agrees c (s.heap.withUses []) a :=
    .inr ⟨check_invalid hc hfind hpage hhas htype, _, free_invalid hc hfind hpage hhas htype⟩
  cases t with
  | free m => exact hinvalid (.inl (hdescribed hc p hp.1 hp.2))
  | multi m =>
    obtain ⟨htype, hmap, hcont, -⟩ := hdescribed
    rcases Nat.lt_or_ge q p with hlt | hge
    · exact hinvalid (.inr (hcont hc p hlt hp.2))
    -- Any offset in the first page stands for the block.
    · obtain rfl : p = q := by omega
      have hm : 0 < m := hv
      obtain ⟨b, hb, hkey⟩ := (hi.live_iff hone).mpr ⟨p, _, ht, List.mem_singleton_self _⟩
      have haddr : b.addr = ext.membase + 512 * (p : ℤ) := congrArg Prod.fst hkey
      have hsize : b.key.2 = 512 * m := congrArg Prod.snd hkey
      obtain ⟨hfind', hpage'⟩ := hlookup b.addr ⟨by omega, by omega⟩
      have hbsize : (ext.pagemap p).bsize = 512 * m := by
        rw [HeapPgentry.bsize, hmap, BitVec.toNat_ofNat, Nat.mod_eq_of_lt]
        simp only [Seg.pages] at hbounds
        omega
      obtain ⟨h', hrun, hused⟩ := hi.free_used hb
      refine .inl ⟨512 * m, h', ?_, ?_, by rw [← hsize]; exact hused⟩
      · rw [check_list hfind hpage hhas htype, hbsize]
      · rw [free_samePage hfind hfind' hpage hpage' hhas htype, hrun]
  | bucket l map =>
    obtain ⟨htype, -, -⟩ := hdescribed
    obtain ⟨hbucketed, -, hbusy⟩ := hv
    have hpos : 0 < 2 ^ l := Nat.two_pow_pos l
    obtain rfl : p = q := by
      have := hp.2
      simp only [Seg.pages] at this
      omega
    have hcheck := check_bucket (c := c) (h := s.heap.withUses []) hbucketed hfind hpage hhas htype
    by_cases hoff : (a - ext.membase).toNat % 512 % 2 ^ l = 0
    · rw [if_neg (not_not.mpr hoff)] at hcheck
      obtain ⟨k, hslot, rfl⟩ := exists_slot hbucketed ha hoff
      by_cases hin : k ∈ busy l map
      · obtain ⟨b, hb, hkey⟩ := (hi.live_iff hone).mpr ⟨p, _, ht, List.mem_map.mpr ⟨k, hin, rfl⟩⟩
        have haddr : b.addr = ext.membase + 512 * (p : ℤ) + (k * 2 ^ l : ℕ) := congrArg Prod.fst hkey
        have hsize : b.key.2 = 2 ^ l := congrArg Prod.snd hkey
        obtain ⟨h', hrun, hused⟩ := hi.free_used hb
        rw [haddr] at hrun
        rw [hsize] at hused
        exact .inl ⟨2 ^ l, h', hcheck, hrun, hused⟩
      -- Some other block of the page is live, so that there is as much in use.
      · obtain ⟨k₀, hk₀⟩ := List.exists_mem_of_ne_nil _ hbusy
        obtain ⟨b, hb, hkey⟩ := (hi.live_iff hone).mpr ⟨p, _, ht, List.mem_map.mpr ⟨k₀, hk₀, rfl⟩⟩
        have hsize : b.key.2 = 2 ^ l := congrArg Prod.snd hkey
        have hle := hi.le_used hb
        rw [hsize] at hle
        have hlt : s.heap.usedSize < 2 ^ 64 := hi.used_eq.2.trans_lt hi.usable_eq.2
        obtain ⟨A, B, rfl, hpA⟩ := mem_place.mp ht
        rw [Nat.zero_add] at hpA
        have hi₀ : HeapInv c (s.heap.withUses []) abs := hi.congr rfl rfl rfl
        obtain ⟨P, Q, ho⟩ := exists_onPage hi₀ hj
        obtain ⟨h', hrun, hused⟩ := free_idle ho hslot hin
        rw [← hpA] at hrun
        refine .inl ⟨2 ^ l, h', hcheck, hrun, ?_⟩
        rw [hused]
        change sizeSub s.heap.usedSize (2 ^ l) + 2 ^ l = s.heap.usedSize
        rw [sizeSub_of_le hle hlt]
        omega
    · rw [if_pos hoff] at hcheck
      exact .inr ⟨hcheck, _, free_misaligned hbucketed hfind hpage hhas htype hoff⟩

/-- In every run over one extent whose requests the heap handles, a check and a free agree about
every pointer. -/
theorem check_agrees (hc : c.debug = true)
    (h : Reach (fun s op s' => Single c s op ∧ Step c s op s') (Initial c) s) (a : ℤ) :
    Agrees c (s.heap.withUses []) a := by
  obtain ⟨abs, hi, hlen⟩ := reach_single h
  obtain ⟨⟨ext, segs⟩, hone⟩ := List.length_eq_one_iff.mp hlen
  have hexts : (s.heap.withUses []).extents = [ext] := by
    change s.heap.extents = _
    rw [hi.extents, hone, List.map_singleton]
  have hold : Holds c ext segs := hi.holds (ext, segs) (by simp [hone])
  have hlimit := hold.limit
  have htotal := hold.total
  by_cases hin : ext.membase ≤ a ∧ a < ext.memlim
  · obtain ⟨⟨q, t⟩, ht, hp⟩ := exists_place (x := (a - ext.membase).toNat / 512) (Nat.zero_le _)
      (show (a - ext.membase).toNat / 512 < 0 + cover Seg.pages segs by omega)
    exact hi.agrees_tile hc hone ht hp ⟨by omega, by omega⟩
  · have hnone : findExtent a (s.heap.withUses []).extents = none := by
      rw [hexts, findExtent, if_neg hin]
      rfl
    refine .inr ⟨?_, s.heap.withUses [], ?_⟩
    · rw [evlCheckBlockUnlocked, hnone]
      rfl
    · rw [evlFreeBlockUnlocked, hnone]
      rfl

/-- An idle slot in the page of a live block of 16 bytes. -/
theorem check_agrees_idle : ∃ s, (newHeap ⟨true, true⟩ 2 >>= fun s =>
      runs (exec ⟨true, true⟩) s [.alloc 16]) = some s ∧
    Agrees ⟨true, true⟩ (s.heap.withUses []) 4816 := by
  have hrun : ((newHeap ⟨true, true⟩ 2 >>= fun s => runs (exec ⟨true, true⟩) s [.alloc 16]).map
      fun _ => true) = some true := by decide
  obtain ⟨s, hs, -⟩ := Option.map_eq_some_iff.mp hrun
  have hsmall : ∀ op ∈ [Op.alloc 16], op.small = true := by decide
  have hreach : Reach (fun s op s' => Single ⟨true, true⟩ s op ∧ Step ⟨true, true⟩ s op s')
      (Initial ⟨true, true⟩) s :=
    reach_replay hs (fun _ hs₀ => newHeap_initial hs₀ (by decide))
      fun op hop _ _ h => ⟨single_of_small rfl (hsmall op hop), h⟩
  exact ⟨s, hs, check_agrees (c := ⟨true, true⟩) rfl hreach 4816⟩

/-- In a heap of one page, a check of a block of 2^63 + 512 bytes tells 512, and the free fails an
assertion. -/
theorem not_check_agrees : ¬ ∀ (c : Cfg) (s : State), c.debug = true →
    Reach (fun s op s' => Step c s op s' ∧ ∀ raw mem size, op ≠ .extend raw mem size) (Initial c) s →
      ∀ a, Agrees c (s.heap.withUses []) a := by
  intro h
  have hrun : ((newHeap ⟨true, false⟩ 1 >>= fun s =>
      runs (exec ⟨true, false⟩) s [.alloc (2 ^ 63 + 512)]).map fun s =>
        ((evlCheckBlockUnlocked ⟨true, false⟩ (s.heap.withUses []) 4272).toOption,
          (evlFreeBlockUnlocked ⟨true, false⟩ (s.heap.withUses []) 4272).toOption.map Prod.snd)) =
        some (some 512, none) := by decide
  obtain ⟨s, hs, hval⟩ := Option.map_eq_some_iff.mp hrun
  obtain ⟨hcheck, hfree⟩ := Prod.mk.inj hval
  have hreach : Reach (fun s op s' => Step ⟨true, false⟩ s op s' ∧
      ∀ raw mem size, op ≠ .extend raw mem size) (Initial ⟨true, false⟩) s := by
    apply reach_replay hs fun _ hs₀ => newHeap_initial hs₀ (by decide)
    intro op hop s s' hs
    refine ⟨hs, ?_⟩
    rw [List.mem_singleton.mp hop]
    intro raw mem size
    simp only [ne_eq, reduceCtorEq, not_false_eq_true]
  rcases h _ _ rfl hreach 4272 with ⟨b, h', -, hok, -⟩ | ⟨-, h', hok⟩
  · rw [hok] at hfree
    cases hfree
  · rw [hok] at hfree
    cases hfree

end Lookups

end Libevl.Heap
