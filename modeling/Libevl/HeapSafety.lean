import Libevl.HeapRun

/-!
# Safety of the heap

Live blocks lie in the pages of their extent, apart from each other and from the
free ranges. Requests that the heap can handle never go wrong, and those beyond
the usable size are refused.
-/
namespace Libevl.Heap
open AvlTree Tiling Transition

section Totals

variable {c : Cfg} {h : EvlHeap} {s : State} {abs : Abs} {ext : HeapExtent} {segs : List Seg}

theorem sum_flatMap_le {α : Type*} {f : α → List (ℤ × ℕ)} {g : α → ℕ} {l : List α}
    (h : ∀ x ∈ l, ((f x).map Prod.snd).sum ≤ g x) :
    ((l.flatMap f).map Prod.snd).sum ≤ (l.map g).sum := by
  induction l with
  | nil => simp
  | cons x l ih =>
    have hx := h x List.mem_cons_self
    have hl := ih fun y hy => h y (List.mem_cons_of_mem _ hy)
    simp only [List.flatMap_cons, List.map_append, List.sum_append, List.map_cons, List.sum_cons]
    omega

/-- The pools of all extents fit into the memory. -/
theorem HeapInv.usable_eq (hi : HeapInv c h abs) :
    h.usableSize = (abs.pairs.map fun x => 512 * cover Seg.pages x.2).sum ∧
      h.usableSize < 2 ^ 64 := by
  have hlim {x : HeapExtent × List Seg} (hx : x ∈ abs.pairs) :
      x.1.membase + (512 * cover Seg.pages x.2 : ℕ) = x.1.memlim := by
    have hlimit := (hi.holds x hx).limit
    have htotal := (hi.holds x hx).total
    omega
  have happ : (abs.pairs.map fun x => (x.1.membase, 512 * cover Seg.pages x.2)).Pairwise Apart := by
    rw [List.pairwise_map]
    refine hi.areas.imp_of_mem fun {x y} hx hy hxy => ?_
    have h₁ := (hi.headers x hx).2.1
    have h₂ := (hi.headers y hy).2.1
    have h₃ := hlim hx
    have h₄ := hlim hy
    rcases hxy with hxy | hxy
    · exact .inl (by simp only; omega)
    · exact .inr (by simp only; omega)
  have hsum := sum_le_of_apart 1 (2 ^ 64 - 1) happ fun z hz => by
    obtain ⟨x, hx, rfl⟩ := List.mem_map.mp hz
    obtain ⟨h₁, h₂, -, h₄⟩ := hi.headers x hx
    have h₃ := hlim hx
    simp only
    omega
  rw [List.map_map] at hsum
  have hcomp : (Prod.snd ∘ fun x : HeapExtent × List Seg =>
      (x.1.membase, 512 * cover Seg.pages x.2)) = fun x => 512 * cover Seg.pages x.2 := rfl
  rw [hcomp] at hsum
  have hmod := hi.usable
  rw [Nat.mod_eq_of_lt (by omega)] at hmod
  exact ⟨hmod, by omega⟩

/-- A free tile or a bucket page is at most as large as the heap. -/
theorem HeapInv.le_usable (hi : HeapInv c h abs) {x : HeapExtent × List Seg} (hx : x ∈ abs.pairs) :
    512 * cover Seg.pages x.2 ≤ h.usableSize := by
  rw [hi.usable_eq.1]
  exact List.single_le_sum (fun _ _ => Nat.zero_le _) _ (List.mem_map_of_mem hx)

/-- The blocks of all extents do not overlap. -/
theorem HeapInv.blocks_apart (hi : HeapInv c h abs) : abs.blocks.Pairwise Apart := by
  refine List.pairwise_flatMap.mpr ⟨fun x hx => blocksOf_apart (hi.holds x hx).valid,
    hi.areas.imp_of_mem fun {x y} hx hy hxy q hq r hr => ?_⟩
  have h₁ := (hi.holds x hx).inside (.inl hq)
  have h₂ := (hi.holds y hy).inside (.inl hr)
  have h₃ := (hi.headers x hx).2.1
  have h₄ := (hi.headers y hy).2.1
  rcases hxy with hxy | hxy
  · exact .inl (by omega)
  · exact .inr (by omega)

theorem Inv.live_apart (hi : Inv c s abs) : s.live.Pairwise fun a b => Apart a.key b.key := by
  rw [← List.pairwise_map (f := Block.key)]
  exact (hi.live.pairwise_iff fun h => h.symm).mpr hi.blocks_apart

/-- The sizes of the live blocks add up to the size in use. -/
theorem Inv.used_eq (hi : Inv c s abs) :
    s.heap.usedSize = (s.live.map fun b => b.key.2).sum ∧ s.heap.usedSize ≤ s.heap.usableSize := by
  have hblocks : ((abs.blocks).map Prod.snd).sum ≤
      (abs.pairs.map fun x => 512 * cover Seg.pages x.2).sum := by
    refine sum_flatMap_le fun x hx => ?_
    have hold := hi.holds x hx
    refine sum_le_of_apart x.1.membase _ (blocksOf_apart hold.valid) fun q hq => ?_
    have := blocksOf_bounds hold.valid hq
    omega
  have hperm := (hi.live.map Prod.snd).sum_eq
  rw [List.map_map] at hperm
  have hsum : (s.live.map fun b => b.key.2).sum ≤ s.heap.usableSize := by
    rw [hi.usable_eq.1]
    exact hperm.trans_le hblocks
  have hlt := hi.usable_eq.2
  have hused := hi.used
  rw [Nat.mod_eq_of_lt (by omega)] at hused
  exact ⟨hused, hused.trans_le hsum⟩

end Totals

section Replay

/-- The step function for replayed requests. -/
def exec (c : Cfg) (s : State) : Op → Option State
  | .alloc size =>
    if size < 2 ^ 64 then
      match evlAllocBlockUnlocked c (s.heap.withUses []) size with
      | .ok (h, r) => some ⟨h, handOut r size s.live⟩
      | .error _ => none
    else none
  | .free b =>
    if b ∈ s.live then
      match evlFreeBlockUnlocked c (s.heap.withUses []) b.addr with
      | .ok (h, r) => some ⟨h, giveBack r b s.live⟩
      | .error _ => none
    else none
  | .extend raw mem size =>
    if (0 < mem ∧ mem + (size : ℤ) ≤ 2 ^ 64) ∧
        ∀ ext ∈ s.heap.extents, ext.memlim ≤ mem ∨ mem + size ≤ ext.mem then
      match evlExtendHeapUnlocked c (s.heap.withUses []) raw mem size with
      | .ok r => some ⟨r.getD (s.heap.withUses []), s.live⟩
      | .error _ => none
    else none
  | .write => none

theorem exec_step {c : Cfg} {s s' : State} {op : Op} (h : exec c s op = some s') :
    Step c s op s' := by
  cases op with
  | alloc size =>
    simp only [exec] at h
    split_ifs at h with hsize
    split at h
    · obtain rfl := Option.some.inj h
      exact .alloc hsize ‹_›
    · cases h
  | free b =>
    simp only [exec] at h
    split_ifs at h with hb
    split at h
    · obtain rfl := Option.some.inj h
      exact .free hb ‹_›
    · cases h
  | extend raw mem size =>
    simp only [exec] at h
    split_ifs at h with hf
    split at h
    · obtain rfl := Option.some.inj h
      exact .extend hf.1 hf.2 ‹_›
    · cases h
  | write => cases h

/-- Memory that was never used. -/
def blank : HeapExtent :=
  let t : Avl ℤ := ⟨fun _ => ⟨0, 0, none, none, none⟩, none, none, 0, 0⟩
  ⟨0, 0, 0, 0, fun _ => ⟨0, 0, 0, 0⟩, t, t, fun _ => 0⟩

/-- The size of an area for `n` pages. -/
def rawSize (n : ℕ) : ℕ := 512 * n + alignTo (160 + 12 * n) 16

/-- A heap of `n` pages at the address 4096. -/
def newHeap (c : Cfg) (n : ℕ) : Option State :=
  match evlInitHeapUnlocked c blank 4096 (rawSize n) with
  | .ok (some h) => some ⟨h, []⟩
  | _ => none

theorem newHeap_eq_some {c : Cfg} {n : ℕ} {s : State} (hs : newHeap c n = some s) :
    ∃ h, evlInitHeapUnlocked c blank 4096 (rawSize n) = .ok (some h) ∧ s = ⟨h, []⟩ := by
  -- The definition is opened as a function, or the kernel would run the initialization.
  obtain ⟨f, hf⟩ : ∃ f, f = newHeap := ⟨_, rfl⟩
  rw [← hf] at hs
  delta newHeap at hf
  rw [hf] at hs
  beta_reduce at hs
  generalize evlInitHeapUnlocked c blank 4096 (rawSize n) = r at hs ⊢
  rcases r with _ | (_ | h)
  · contradiction
  · contradiction
  · exact ⟨h, rfl, (Option.some.inj hs).symm⟩

theorem newHeap_initial {c : Cfg} {n : ℕ} {s : State} (hs : newHeap c n = some s)
    (hn : rawSize n ≤ 2 ^ 32) : Initial c s := by
  obtain ⟨h, hinit, rfl⟩ := newHeap_eq_some hs
  exact ⟨blank, 4096, rawSize n, ⟨by decide, by omega⟩, hinit, rfl⟩

theorem newHeap_live {c : Cfg} {n : ℕ} {s : State} (hs : newHeap c n = some s) : s.live = [] := by
  obtain ⟨h, -, rfl⟩ := newHeap_eq_some hs
  rfl

/-- What a replay on a new heap reaches, when every step of it is admitted. -/
theorem reach_replay {c : Cfg} {R : State → Op → State → Prop} {I : State → Prop} {n : ℕ}
    {ops : List Op} {s : State} (hs : (newHeap c n >>= fun s => runs (exec c) s ops) = some s)
    (hI : ∀ s₀, newHeap c n = some s₀ → I s₀)
    (hR : ∀ op ∈ ops, ∀ s s', Step c s op s' → R s op s') : Reach R I s := by
  obtain ⟨s₀, hs₀, hruns⟩ := Option.bind_eq_some_iff.mp hs
  refine reach_of_runs (fun op hop s s' h => ?_) (.init (hI s₀ hs₀)) hruns
  exact hR op hop s s' (exec_step h)

end Replay

section OneExtent

variable {c : Cfg} {s : State} {abs : Abs} {size : ℕ}

/-- Live blocks have the memory that was asked for, and have it for themselves. -/
structure BlockSafe (s : State) : Prop where
  inside : ∀ b ∈ s.live, ∃ ext ∈ s.heap.extents, ext.membase ≤ b.addr ∧
    b.addr + b.key.2 ≤ ext.memlim ∧ (b.addr - ext.membase) % 16 = 0
  long : ∀ b ∈ s.live, b.size ≤ b.key.2
  apart : s.live.Pairwise fun a b => Apart a.key b.key
  descriptors : ∀ ext ∈ s.heap.extents, ∃ as, Lists ext.addrTree as ∧ ∀ a ∈ as, Untouched s.live a

/-- Requests between one byte and the usable size. -/
def InUsable (s : State) : Op → Prop
  | .alloc size => 1 ≤ size ∧ size ≤ s.heap.usableSize
  | .free _ => True
  | .extend _ _ _ => False
  | .write => True

instance (s : State) (op : Op) : Decidable (InUsable s op) := by
  cases op <;> unfold InUsable <;> infer_instance

theorem Inv.blockSafe (hi : Inv c s abs) : BlockSafe s := by
  refine ⟨fun b hb => ?_, fun b hb => (hi.size_le hb).2, hi.live_apart, fun ext hext => ?_⟩
  · have hkey : b.key ∈ abs.blocks := hi.live.mem_iff.mp (List.mem_map_of_mem hb)
    obtain ⟨x, hx, hblock⟩ := List.mem_flatMap.mp hkey
    obtain ⟨⟨p, t⟩, hp, ht⟩ := List.mem_flatMap.mp hblock
    have hold := hi.holds x hx
    obtain ⟨-, -, halign, -⟩ := (hold.valid t (mem_of_place hp)).blocks_bounds ht
    obtain ⟨h₁, h₂⟩ := hold.inside (.inl hblock)
    refine ⟨x.1, by rw [hi.extents]; exact List.mem_map_of_mem hx, h₁, h₂, ?_⟩
    have haddr : b.key.1 = b.addr := rfl
    simp only at halign
    omega
  · rw [hi.extents] at hext
    obtain ⟨x, hx, rfl⟩ := List.mem_map.mp hext
    refine ⟨_, (hi.holds x hx).ranges.addr, fun a ha => ?_⟩
    obtain ⟨r, hr, rfl⟩ := List.mem_map.mp ha
    exact hi.untouched hx hr

/-- Requests below 2^62 bytes compare the right way round, and exact page numbers do not overflow. -/
theorem handled_of_exact {h : EvlHeap} (hc : c.exact = true) (hsize : size < 2 ^ 62) :
    Handled c h size := by
  have hmax : size ≤ 2 ^ 64 - 512 := by omega
  have hlt := blockSize_lt hmax
  refine ⟨⟨by omega, fun ext _ => HeapExtent.fits_of_lt (by omega)⟩, fun _ _ _ _ _ _ _ _ => ?_⟩
  rw [Cfg.int, if_pos hc]

/-- Frees, and requests below 2^62 bytes. -/
def Op.small : Op → Bool
  | .alloc size => size < 2 ^ 62
  | .free _ => true
  | .extend _ _ _ => false
  | .write => true

theorem single_of_small (hc : c.exact = true) {op : Op} (h : op.small = true) : Single c s op := by
  cases op with
  | alloc size => exact handled_of_exact hc (of_decide_eq_true h)
  | free b => trivial
  | extend raw mem size => exact absurd h Bool.false_ne_true
  | write => trivial

theorem Inv.usable_lt (hi : Inv c s abs) (hone : abs.pairs.length = 1) :
    s.heap.usableSize < 2 ^ 32 := by
  obtain ⟨x, hx⟩ := List.length_eq_one_iff.mp hone
  have hold := hi.holds x (by simp [hx])
  have htotal := hold.total
  have hbound := hold.bound
  rw [hi.toHeapInv.usable_eq.1, hx]
  simp only [List.map_cons, List.map_nil, List.sum_cons, List.sum_nil]
  omega

theorem reach_inUsable (hc : c.exact = true)
    (h : Reach (fun s op s' => InUsable s op ∧ Step c s op s') (Initial c) s) :
    ∃ abs, Inv c s abs ∧ abs.pairs.length = 1 := by
  induction h with
  | init hs =>
    obtain ⟨ext, n, hi⟩ := initial_inv hs
    exact ⟨_, hi, rfl⟩
  | @step s s' op _ hr ih =>
    obtain ⟨abs, hi, hone⟩ := ih
    obtain ⟨hu, hstep⟩ := hr
    have hs : Single c s op := by
      cases op with
      | alloc size =>
        have := hi.usable_lt hone
        exact handled_of_exact hc (by have := hu.2; omega)
      | free b => trivial
      | extend raw mem size => exact hu
      | write => trivial
    obtain ⟨abs', -, hi', hone'⟩ := single_spec hi hone hs hstep
    exact ⟨abs', hi', hone'⟩

/-- Block safety of a heap with one extent: live blocks are safe in every state, and neither an
allocation up to the usable size nor a free of a live block goes wrong. -/
theorem one_extent_safe (hc : c.exact = true)
    (h : Reach (fun s op s' => InUsable s op ∧ Step c s op s') (Initial c) s) :
    BlockSafe s ∧
      (∀ size, 1 ≤ size → size ≤ s.heap.usableSize →
        ∃ h' r, evlAllocBlockUnlocked c (s.heap.withUses []) size = .ok (h', r)) ∧
      ∀ b ∈ s.live, ∃ h', evlFreeBlockUnlocked c (s.heap.withUses []) b.addr = .ok (h', 0) := by
  obtain ⟨abs, hi, hone⟩ := reach_inUsable hc h
  refine ⟨hi.blockSafe, fun size _ hsize => ?_, fun b hb => ?_⟩
  · have := hi.usable_lt hone
    have hh : Handled c s.heap size := handled_of_exact hc (by omega)
    obtain ⟨h', r, -, hrun, -⟩ := hi.alloc (hi.ready hh (hi.inFirst hone))
    exact ⟨h', r, hrun⟩
  · obtain ⟨h', -, hrun, -⟩ := hi.free hb
    exact ⟨h', hrun⟩

/-- The replay of requests within the usable size. -/
def execIn (c : Cfg) (s : State) (op : Op) : Option State :=
  if InUsable s op then exec c s op else none

theorem execIn_step {s' : State} {op : Op} (h : execIn c s op = some s') :
    InUsable s op ∧ Step c s op s' := by
  unfold execIn at h
  split_ifs at h with hu
  exact ⟨hu, exec_step h⟩

/-- Three pages: a bucketed block, a block of two pages, and the first one freed. -/
theorem one_extent_safe_mixed : ∃ s, (newHeap ⟨true, true⟩ 3 >>= fun s =>
      runs (execIn ⟨true, true⟩) s [.alloc 100, .alloc 600, .free ⟨5328, 100⟩]) = some s ∧
    s.live = [⟨4304, 600⟩] ∧ BlockSafe s := by
  have hrun : ((newHeap ⟨true, true⟩ 3 >>= fun s =>
      runs (execIn ⟨true, true⟩) s [.alloc 100, .alloc 600, .free ⟨5328, 100⟩]).map State.live) =
        some [⟨4304, 600⟩] := by decide
  obtain ⟨s, hs, hlive⟩ := Option.map_eq_some_iff.mp hrun
  obtain ⟨s₀, hs₀, hruns⟩ := Option.bind_eq_some_iff.mp hs
  have hstep : ∀ op ∈ [Op.alloc 100, .alloc 600, .free ⟨5328, 100⟩], ∀ s s',
      execIn ⟨true, true⟩ s op = some s' → InUsable s op ∧ Step ⟨true, true⟩ s op s' :=
    fun _ _ _ _ h => execIn_step h
  have hreach := reach_of_runs hstep (.init (newHeap_initial hs₀ (by decide))) hruns
  exact ⟨s, hs, hlive, (one_extent_safe (c := ⟨true, true⟩) rfl hreach).1⟩

end OneExtent

section Extents

variable {c : Cfg} {s : State} {abs : Abs} {op : Op}

/-- The page that a bucket head or a link designates is a page of that extent with live blocks of
that size. -/
def Designated (s : State) (u : Use) : Prop :=
  ∃ ext ∈ s.heap.extents, ext.mem = u.ext ∧ (0 ≤ u.page ∧ u.page < ext.nrpages) ∧
    Bucketed u.log2size ∧ (ext.pagemap u.page).type = u.log2size ∧
      ∃ b ∈ s.live, blockSize b.size = (2 ^ u.log2size, u.log2size) ∧
        ext.membase + 512 * u.page ≤ b.addr ∧
        b.addr + (2 ^ u.log2size : ℕ) ≤ ext.membase + 512 * (u.page + 1)

/-- An allocation, or a free of a live block. -/
def Request (s : State) : Op → Prop
  | .alloc size => size < 2 ^ 64
  | .free b => b ∈ s.live
  | .extend _ _ _ => False
  | .write => False

/-- The request is served, only designated pages are looked up for it, and the live blocks stay
apart. -/
def Sound (c : Cfg) (s : State) (op : Op) : Prop :=
  (∃ s', Step c s op s') ∧ ∀ s', Step c s op s' →
    (∀ u ∈ s'.heap.uses, Designated s u) ∧ s'.live.Pairwise fun a b => Apart a.key b.key

theorem Inv.designated (hi : Inv c s abs) {u : Use} (hu : abs.Names u) : Designated s u := by
  obtain ⟨hl, x, hx, hmem, hpage⟩ := hu
  have hlive := hi.exists_live hx hl hpage
  have hold := hi.holds x hx
  obtain ⟨p, map, hp, hup⟩ := hpage
  refine ⟨x.1, by rw [hi.extents]; exact List.mem_map_of_mem hx, hmem, ?_, hl, ?_, hlive⟩
  · rw [hup]
    exact hold.hasPage hp
  · rw [hup]
    exact (hold.described _ hp).1

theorem Inv.serves (hi : Inv c s abs) (hr : Request s op) (hm : Meets c s op) :
    ∃ s', Step c s op s' := by
  cases op with
  | alloc size =>
    obtain ⟨h', r, -, hrun, -⟩ := hi.alloc (hi.ready hm.1 hm.2)
    exact ⟨_, .alloc hr hrun⟩
  | free b =>
    obtain ⟨h', -, hrun, -⟩ := hi.free hr
    exact ⟨_, .free hr hrun⟩
  | extend raw mem size => exact absurd hr id
  | write => exact absurd hr id

/-- Bucket pages and extents stay apart in every run in which the blocks of a bucketed size are
asked for only while all its live blocks are in the first extent and that extent provides the
next page for them. -/
theorem extents_sound_of_meets
    (h : Reach (fun s op s' => Meets c s op ∧ Step c s op s') (Initial c) s) :
    ∀ op, Request s op → Meets c s op → Sound c s op := by
  obtain ⟨abs, hi, -⟩ := reach_inv h
  intro op hr hm
  refine ⟨hi.serves hr hm, fun s' hstep => ?_⟩
  obtain ⟨abs', -, hi', huses⟩ := step_spec hi hm hstep
  refine ⟨fun u hu => hi.designated (huses ?_ u hu), hi'.live_apart⟩
  cases op with
  | alloc size => exact .inl ⟨size, rfl⟩
  | free b => exact .inr ⟨b, rfl⟩
  | extend raw mem size => exact absurd hr id
  | write => exact absurd hr id

/-- A page of 16-byte blocks is the first extent's; the second extent is not needed for it. -/
theorem extents_sound_of_meets_first : ∃ s, (newHeap ⟨true, true⟩ 2 >>= fun s =>
      runs (exec ⟨true, true⟩) s [.extend blank 20000 (rawSize 1), .alloc 16]) = some s ∧
    Sound ⟨true, true⟩ s (.free ⟨4800, 16⟩) := by
  have hrun : ((newHeap ⟨true, true⟩ 2 >>= fun s =>
      runs (exec ⟨true, true⟩) s [.extend blank 20000 (rawSize 1), .alloc 16]).map State.live) =
        some [⟨4800, 16⟩] := by decide
  obtain ⟨s, hs, hlive⟩ := Option.map_eq_some_iff.mp hrun
  obtain ⟨s₀, hs₀, hruns⟩ := Option.bind_eq_some_iff.mp hs
  obtain ⟨s₁, hs₁, hruns₁⟩ := Option.bind_eq_some_iff.mp hruns
  obtain ⟨s₂, hs₂, hruns₂⟩ := Option.bind_eq_some_iff.mp hruns₁
  obtain rfl : s₂ = s := Option.some.inj hruns₂
  have hstep := exec_step hs₁
  have hlive₁ : s₁.live = [] := by
    cases hstep
    change s₀.live = []
    exact newHeap_live hs₀
  have hmeets : Meets ⟨true, true⟩ s₁ (.alloc 16) := by
    refine ⟨handled_of_exact rfl (by decide), fun ext rest _ _ b hb => ?_⟩
    rw [hlive₁] at hb
    cases hb
  have hreach : Reach (fun s op s' => Meets ⟨true, true⟩ s op ∧ Step ⟨true, true⟩ s op s')
      (Initial ⟨true, true⟩) s₂ :=
    .step (.step (a := .extend blank 20000 (rawSize 1)) (.init (newHeap_initial hs₀ (by decide)))
      ⟨trivial, hstep⟩) ⟨hmeets, exec_step hs₂⟩
  refine ⟨s₂, hs, extents_sound_of_meets (c := ⟨true, true⟩) hreach _ ?_ trivial⟩
  rw [Request, hlive]
  exact List.mem_cons_self

/-- A page of the second extent is taken for one of the first: the third allocation returns memory
of the block that is live there. -/
theorem not_extents_sound_of_second : ¬ ∀ (c : Cfg) (s : State),
    Reach (fun s op s' => Step c s op s') (Initial c) s →
      ∀ op, Request s op → Sound c s op := by
  intro h
  have hrun : ((newHeap ⟨true, false⟩ 1 >>= fun s => runs (exec ⟨true, false⟩) s
      [.extend blank 20000 (rawSize 1), .alloc 512, .alloc 16, .alloc 16]).map State.live) =
        some [⟨4272, 16⟩, ⟨20176, 16⟩, ⟨4272, 512⟩] := by decide
  obtain ⟨s, hs, hlive⟩ := Option.map_eq_some_iff.mp hrun
  obtain ⟨s₀, hs₀, hruns⟩ := Option.bind_eq_some_iff.mp hs
  obtain ⟨s₁, hs₁, hruns₁⟩ := Option.bind_eq_some_iff.mp hruns
  obtain ⟨s₂, hs₂, hruns₂⟩ := Option.bind_eq_some_iff.mp hruns₁
  obtain ⟨s₃, hs₃, hruns₃⟩ := Option.bind_eq_some_iff.mp hruns₂
  obtain ⟨s₄, hs₄, hruns₄⟩ := Option.bind_eq_some_iff.mp hruns₃
  obtain rfl : s₄ = s := Option.some.inj hruns₄
  have hreach : Reach (fun s op s' => Step ⟨true, false⟩ s op s') (Initial ⟨true, false⟩) s₃ :=
    ((Reach.init (newHeap_initial hs₀ (by decide))).step (exec_step hs₁) |>.step
      (exec_step hs₂)).step (exec_step hs₃)
  have hrequest : Request s₃ (.alloc 16) := show 16 < 2 ^ 64 by decide
  have happ := ((h _ _ hreach _ hrequest).2 _ (exec_step hs₄)).2
  rw [hlive] at happ
  have hbad := (List.pairwise_cons.mp happ).1 ⟨4272, 512⟩ (by simp)
  have hkey : Block.key ⟨4272, 16⟩ = (4272, 16) ∧ Block.key ⟨4272, 512⟩ = (4272, 512) := by decide
  rw [hkey.1, hkey.2] at hbad
  rcases hbad with hbad | hbad <;> simp at hbad

end Extents

end Libevl.Heap
