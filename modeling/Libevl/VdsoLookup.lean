import Libevl.Vdso
import Mathlib.Data.List.Find
import Mathlib.Data.List.Perm.Subperm
import Mathlib.Tactic.IntervalCases

/-!
# Lookups in the vDSO

The GNU hash table groups the symbols by buckets, the other one chains them. Either
way a lookup answers like a scan of the symbols the table has: what it skips has
another name. The version table is scanned from its start each time. `elf_hash`
computes in an `unsigned long`, so that bits carried out of the 32 bits of the
specified hash stay; they do no harm to the comparison of versions, which takes the
lower half, but may lead to another bucket.
-/
namespace Libevl.Vdso
open ForwardList BucketIndex

section Hash

theorem hashStep_eq (w : ℕ) (h : BitVec w) (c : BitVec 8) :
    hashStep w h c =
      let h := (h <<< 4) + c.setWidth w
      let g := h &&& BitVec.ofNat w 0xf0000000
      (h ^^^ (g >>> 24)) &&& ~~~g := by
  unfold hashStep
  dsimp only
  split_ifs with hg
  · rfl
  · rw [not_not.mp hg]
    simp

theorem mask_bit (j : ℕ) :
    (BitVec.ofNat 64 0xf0000000).getLsbD j = (BitVec.ofNat 32 0xf0000000).getLsbD j := by
  rw [BitVec.getLsbD_ofNat, BitVec.getLsbD_ofNat]
  by_cases hj : j < 32
  · simp [hj, show j < 64 by omega]
  · have hzero : Nat.testBit 0xf0000000 j = false :=
      Nat.testBit_lt_two_pow (lt_of_lt_of_le (by decide : 0xf0000000 < 2 ^ 32)
        (Nat.pow_le_pow_right (by decide) (by omega)))
    simp [hzero]

theorem setWidth_hashStep (h : BitVec 64) (c : BitVec 8) :
    (hashStep 64 h c).setWidth 32 = hashStep 32 (h.setWidth 32) c := by
  have hsum : ((h <<< 4) + c.setWidth 64).setWidth 32 =
      ((h.setWidth 32) <<< 4) + c.setWidth 32 := by
    rw [BitVec.setWidth_add _ _ (by decide)]
    congr 1
    · ext i hi
      simp
    · exact BitVec.setWidth_setWidth_of_le c (by decide)
  rw [hashStep_eq, hashStep_eq]
  dsimp only
  rw [← hsum]
  generalize (h <<< 4) + c.setWidth 64 = x
  ext i hi
  simp only [← BitVec.getLsbD_eq_getElem, BitVec.getLsbD_setWidth, BitVec.getLsbD_and,
    BitVec.getLsbD_xor, BitVec.getLsbD_not, BitVec.getLsbD_ushiftRight, mask_bit]
  by_cases hj : 24 + i < 32
  · simp [hi, hj, show i < 64 by omega]
  · have hzero : (BitVec.ofNat 32 0xf0000000).getLsbD (24 + i) = false :=
      BitVec.getLsbD_of_ge _ _ (by omega)
    simp [hi, hzero, show i < 64 by omega]

/-- Whatever is carried out of 32 bits, the lower half of `elf_hash` is the specified hash. -/
theorem setWidth_elfHash (name : CString) : (elfHash name).setWidth 32 = elfHash32 name := by
  have hfold : ∀ (h : BitVec 64), (name.foldl (hashStep 64) h).setWidth 32 =
      name.foldl (hashStep 32) (h.setWidth 32) := by
    induction name with
    | nil => intro h; rfl
    | cons c name ih =>
      intro h
      rw [List.foldl_cons, List.foldl_cons, ih, setWidth_hashStep]
  exact hfold 0

end Hash

section Check

variable {m : Memory} {v : VdsoInfo} {defs : List ℕ} {k : ℕ} {version name : CString} {i : ℕ}

/-- From one version definition to the next. -/
def nextVerdef (m : Memory) (d : ℕ) : Option ℕ :=
  if (m.verdef d).next = 0 then none else some (d + (m.verdef d).next)

/-- The version definitions, with the hashes of their names. -/
structure VersionTable (m : Memory) (v : VdsoInfo) (defs : List ℕ) : Prop where
  path : Path (nextVerdef m) (some v.verdef) defs
  hashes : ∀ d ∈ defs, (m.verdef d).hash = (elfHash32 (verdefName m v d)).toNat

/-- The definition with some index, unless it is the one of the file itself. -/
def IsVerdef (m : Memory) (ver d : ℕ) : Prop :=
  (m.verdef d).flags &&& verFlgBase = 0 ∧ (m.verdef d).ndx &&& 0x7fff = ver

instance (m : Memory) (ver d : ℕ) : Decidable (IsVerdef m ver d) :=
  inferInstanceAs (Decidable (_ ∧ _))

/-- The version with some index. -/
def versionName (m : Memory) (v : VdsoInfo) (defs : List ℕ) (ver : ℕ) : Option CString :=
  (defs.find? (IsVerdef m ver ·)).map (verdefName m v)

/-- A function of this name and version, as others may use it. -/
def Exports (m : Memory) (v : VdsoInfo) (defs : List ℕ) (version name : CString) (i : ℕ) : Prop :=
  (symbol m v i).info &&& 0xf = sttFunc ∧
  ((symbol m v i).info >>> 4 = stbGlobal ∨ (symbol m v i).info >>> 4 = stbWeak) ∧
  name = symbolName m v i ∧
  (v.versym ≠ 0 → versionName m v defs (m.versym (v.versym + 2 * i) &&& 0x7fff) = some version)

instance : Decidable (Exports m v defs version name i) := inferInstanceAs (Decidable (_ ∧ _))

theorem findVerdef_eq (ver k p : ℕ) :
    findVerdef m ver k p = search (nextVerdef m) (IsVerdef m ver ·) k (some p) := by
  induction k generalizing p with
  | zero => rfl
  | succ k ih =>
    rw [findVerdef, search]
    by_cases hp : IsVerdef m ver p
    · rw [if_pos (decide_eq_true hp)]
      exact if_pos hp
    · rw [decide_eq_false hp, if_neg Bool.false_ne_true, nextVerdef]
      refine (if_neg hp).trans ?_
      split_ifs
      · cases k <;> rfl
      · exact ih _

theorem vdsoMatchVersion_eq (ht : VersionTable m v defs) (hk : defs.length ≤ k) (ver : ℕ) :
    vdsoMatchVersion m v k ver version (elfHash32 version).toNat =
      some (decide (versionName m v defs (ver &&& 0x7fff) = some version)) := by
  rw [vdsoMatchVersion, findVerdef_eq, search_of_path ht.path hk, versionName]
  cases hd : defs.find? (IsVerdef m (ver &&& 0x7fff) ·) with
  | none => rfl
  | some d =>
    have hhash := ht.hashes d (List.mem_of_find?_eq_some hd)
    by_cases hname : verdefName m v d = version
    · simp [hhash, hname]
    · simp only [Option.map_some, Option.some.injEq, hname, decide_false]
      simp [hhash, Ne.symm hname]

theorem checkSym_eq (ht : v.versym ≠ 0 → VersionTable m v defs) (hk : defs.length ≤ k) :
    checkSym m v k i name version (elfHash version) =
      some (decide (Exports m v defs version name i)) := by
  unfold checkSym
  rw [setWidth_elfHash]
  dsimp only
  split_ifs with htype hbind hname hver
  · simp [Exports, htype]
  · simp [Exports, hbind]
  · simp [Exports, hname]
  · rw [vdsoMatchVersion_eq (ht hver) hk]
    simp only [ne_eq, not_not] at htype hname
    have hb : (symbol m v i).info >>> 4 = stbGlobal ∨ (symbol m v i).info >>> 4 = stbWeak := by
      by_contra h
      exact hbind (not_or.mp h)
    simp [Exports, htype, hb, ← hname, hver]
  · simp only [ne_eq, not_not] at htype hname hver
    have hb : (symbol m v i).info >>> 4 = stbGlobal ∨ (symbol m v i).info >>> 4 = stbWeak := by
      by_contra h
      exact hbind (not_or.mp h)
    simp [Exports, htype, hb, ← hname, hver]

/-- An object mapped at 4096 with the functions `a` and `b` of version `v`, and with both kinds
of hash table. -/
def twoFunctions : Memory where
  ehdr _ := ⟨2, 64, 2⟩
  phdr p := if p = 4160 then ⟨1, 0, 0⟩ else ⟨2, 1000, 1000⟩
  dyn d := ⟨([(5096, dtStrtab), (5112, dtSymtab), (5128, dtHash), (5144, dtGnuHash),
      (5160, dtVersym), (5176, dtVerdef)].lookup d).getD dtNull,
    ([(5096, 2000), (5112, 3000), (5128, 4000), (5144, 5000), (5160, 6000),
      (5176, 7000)].lookup d).getD 0⟩
  word p := ([(8096, 1), (8100, 3), (8104, 2), (8116, 1), (9096, 1), (9100, 1), (9104, 1),
    (9120, 1), (9124, 177670), (9128, 177671)].lookup p).getD 0
  sym p := if p = 7120 then ⟨1, 18, 7, 512⟩ else if p = 7144 then ⟨3, 18, 7, 768⟩ else ⟨0, 0, 0, 0⟩
  versym _ := 2
  verdef p := if p = 11096 then ⟨1, 1, 118, 20, 20⟩ else ⟨0, 2, 118, 20, 0⟩
  verdaux _ := 5
  str p := if p = 6097 then [97] else if p = 6099 then [98] else if p = 6101 then [118] else []

/-- The object as it is read with, and without, its GNU hash table. -/
def withGnu : VdsoInfo :=
  ⟨true, 4096, 4096, 7096, 6096, 9096, 9120, 0, 0, 1, 0, 10096, 11096⟩
def withoutGnu : VdsoInfo :=
  ⟨true, 4096, 4096, 7096, 6096, 0, 0, 8104, 8108, 1, 3, 10096, 11096⟩

theorem twoFunctions_versions : VersionTable twoFunctions withGnu [11096, 11116] :=
  ⟨⟨rfl, rfl, rfl⟩, by decide⟩

end Check

section Gnu

variable {m : Memory} {v : VdsoInfo} {defs : List ℕ} {k n : ℕ} {version name : CString} {i : ℕ}

/-- The index of the first symbol in the GNU hash table. -/
def gnuOffset (m : Memory) (v : VdsoInfo) : ℕ := m.word (v.gnuHash + 4)

/-- Where the hash value of a symbol stands. -/
def gnuValueAt (m : Memory) (v : VdsoInfo) (i : ℕ) : ℕ :=
  v.gnuBucket + 4 * v.nbucket + 4 * (i - gnuOffset m v)

/-- The bucket that a symbol belongs to. -/
def gnuBucketOf (m : Memory) (v : VdsoInfo) (i : ℕ) : ℕ :=
  (gnuHashOf (symbolName m v i)).toNat % v.nbucket

/-- A GNU hash table for the symbols from its offset up to `n`: the symbols are grouped by
buckets, each bucket names its first symbol, and the lowest bit of a hash value tells whether its
symbol is the last one of the bucket. -/
structure GnuTable (m : Memory) (v : VdsoInfo) (n : ℕ) : Prop where
  nbucket : 0 < v.nbucket
  offset : 0 < gnuOffset m v
  offset_le : gnuOffset m v ≤ n
  count : n ≤ 2 ^ 32
  grouped : Grouped (gnuBucketOf m v) (gnuOffset m v) n
  heads : ∀ b < v.nbucket, m.word (v.gnuBucket + 4 * b) =
    (members (gnuBucketOf m v) (gnuOffset m v) n b).headD 0
  values : ∀ i, gnuOffset m v ≤ i → i < n →
    m.word (gnuValueAt m v i) ||| 1 = (gnuHashOf (symbolName m v i)).toNat ||| 1
  lasts : ∀ i, gnuOffset m v ≤ i → i < n →
    (m.word (gnuValueAt m v i) &&& 1 = 0 ↔ i + 1 < n ∧ gnuBucketOf m v (i + 1) = gnuBucketOf m v i)

/-- What a lookup returns for the symbol it found, or for none. -/
def answer (m : Memory) (v : VdsoInfo) (found : Option ℕ) : ℕ := found.elim 0 (symbolAddr m v)

def gnuNext (m : Memory) (v : VdsoInfo) (i : ℕ) : Option ℕ :=
  if m.word (gnuValueAt m v i) &&& 1 ≠ 0 then none else some (i + 1)

/-- The comparison of hash values comes before the other checks. -/
def gnuTest (m : Memory) (v : VdsoInfo) (defs : List ℕ) (version name : CString) (i : ℕ) : Bool :=
  (gnuHashOf name).toNat ||| 1 = m.word (gnuValueAt m v i) ||| 1 ∧ Exports m v defs version name i

theorem gnuLoop_eq (ht : GnuTable m v n) (hver : v.versym ≠ 0 → VersionTable m v defs)
    (hk : defs.length ≤ k) (fuel : ℕ) (hlo : gnuOffset m v ≤ i) (hhi : i < n) :
    gnuLoop m v k ((gnuHashOf name).toNat ||| 1) name version (elfHash version) fuel
        (gnuValueAt m v i) i =
      (search (gnuNext m v) (gnuTest m v defs version name) fuel (some i)).map (answer m v) := by
  induction fuel generalizing i with
  | zero => rfl
  | succ fuel ih =>
    have hhit : (if (gnuHashOf name).toNat ||| 1 = m.word (gnuValueAt m v i) ||| 1 then
        checkSym m v k i name version (elfHash version) else some false) =
        some (gnuTest m v defs version name i) := by
      unfold gnuTest
      rw [checkSym_eq hver hk]
      split_ifs with h <;> simp [h]
    rw [gnuLoop, search]
    rw [hhit, Option.bind_some]
    cases gnuTest m v defs version name i with
    | true => rfl
    | false =>
      rw [gnuNext]
      simp only [Bool.false_eq_true, if_false]
      split_ifs with hodd
      · cases fuel <;> rfl
      · -- the chain goes on, so there is a next symbol
        have hnext := ((ht.lasts i hlo hhi).mp (not_not.mp hodd)).1
        have hcount := ht.count
        have hat : gnuValueAt m v i + 4 = gnuValueAt m v (i + 1) := by
          unfold gnuValueAt
          omega
        rw [hat, Nat.mod_eq_of_lt (by omega)]
        exact ih (by omega) hnext

theorem gnuTest_eq (ht : GnuTable m v n) (hlo : gnuOffset m v ≤ i) (hhi : i < n) :
    gnuTest m v defs version name i = decide (Exports m v defs version name i) := by
  unfold gnuTest
  by_cases h : Exports m v defs version name i
  · have hvalue := ht.values i hlo hhi
    rw [← h.2.2.1] at hvalue
    simp [h, hvalue]
  · simp [h]

theorem Exports.gnuBucket (h : Exports m v defs version name i) :
    gnuBucketOf m v i = (gnuHashOf name).toNat % v.nbucket := by
  rw [gnuBucketOf, ← h.2.2.1]

/-- Through the GNU hash table, the lookup finds what a scan of all its symbols finds first. -/
theorem evlLookupVdso_gnu {fuel : ℕ} (hvalid : v.valid = true) (hgnu : v.gnuHash ≠ 0)
    (ht : GnuTable m v n) (hver : v.versym ≠ 0 → VersionTable m v defs) (hn : n ≤ fuel)
    (hdefs : defs.length ≤ fuel) :
    evlLookupVdso m v fuel version name = some (answer m v
      ((List.range' (gnuOffset m v) (n - gnuOffset m v)).find?
        (Exports m v defs version name ·))) := by
  let b := (gnuHashOf name).toNat % v.nbucket
  have hb : b < v.nbucket := Nat.mod_lt _ ht.nbucket
  have hpath : Path (gnuNext m v) (members (gnuBucketOf m v) (gnuOffset m v) n b).head?
      (members (gnuBucketOf m v) (gnuOffset m v) n b) := by
    refine ht.grouped.path fun i hlo hhi => ?_
    unfold gnuNext
    split_ifs with h₁ h₂ h₂
    · exact absurd ((ht.lasts i hlo hhi).mpr h₂) h₁
    · rfl
    · rfl
    · exact absurd ((ht.lasts i hlo hhi).mp (not_not.mp h₁)) h₂
  have hscan : (members (gnuBucketOf m v) (gnuOffset m v) n b).find?
      (gnuTest m v defs version name) =
      (List.range' (gnuOffset m v) (n - gnuOffset m v)).find? (Exports m v defs version name ·) := by
    rw [← find?_members (b := b) fun i h => (of_decide_eq_true h : Exports ..).gnuBucket]
    refine List.find?_congr fun i hi => ?_
    obtain ⟨⟨hlo, hhi⟩, -⟩ := mem_members.mp hi
    exact gnuTest_eq ht hlo hhi
  have hhead := ht.heads b hb
  unfold evlLookupVdso
  rw [if_neg (by simp [hvalid]), if_pos hgnu]
  dsimp only
  rw [show (gnuHashOf name).toNat % v.nbucket = b from rfl, hhead]
  cases hl : members (gnuBucketOf m v) (gnuOffset m v) n b with
  | nil =>
    rw [hl] at hscan
    rw [← hscan]
    rfl
  | cons i l =>
    have hi : i ∈ members (gnuBucketOf m v) (gnuOffset m v) n b := by simp [hl]
    obtain ⟨⟨hlo, hhi⟩, -⟩ := mem_members.mp hi
    have hpos := ht.offset
    have hcount := ht.count
    have hoff := ht.offset_le
    have hat : v.gnuBucket + 4 * v.nbucket + 4 * ((i + (2 ^ 32 - m.word (v.gnuHash + 4))) % 2 ^ 32) =
        gnuValueAt m v i := by
      have hsub : (i + (2 ^ 32 - gnuOffset m v)) % 2 ^ 32 = i - gnuOffset m v := by omega
      rw [gnuValueAt, ← hsub, gnuOffset]
    have hlen : (members (gnuBucketOf m v) (gnuOffset m v) n b).length ≤ fuel :=
      length_members_le.trans (by omega)
    rw [List.headD_cons, if_neg (by omega), hat, gnuLoop_eq ht hver hdefs fuel hlo hhi]
    rw [hl] at hpath hlen hscan
    rw [List.head?_cons] at hpath
    rw [search_of_path hpath hlen, hscan, Option.map_some]

theorem twoFunctions_gnu : GnuTable twoFunctions withGnu 3 where
  nbucket := by decide
  offset := by decide
  offset_le := by decide
  count := by decide
  grouped i j k _ _ _ _ _ := by simp [gnuBucketOf, withGnu, Nat.mod_one]
  heads := by decide
  values i hlo hhi := by
    have hlo' : 1 ≤ i := hlo
    interval_cases i <;> decide
  lasts i hlo hhi := by
    have hlo' : 1 ≤ i := hlo
    interval_cases i <;> decide

theorem evlLookupVdso_gnu_two : evlLookupVdso twoFunctions withGnu 8 [118] [98] = some 4864 :=
  (evlLookupVdso_gnu rfl (by decide) twoFunctions_gnu (fun _ => twoFunctions_versions)
    (by decide) (by decide)).trans (by decide)

end Gnu

section Sysv

variable {m : Memory} {v : VdsoInfo} {defs : List ℕ} {k n : ℕ} {version name : CString} {i : ℕ}

/-- An index in the table; index 0 ends a chain. -/
def entry (i : ℕ) : Option ℕ := if i = 0 then none else some i

def sysvNext (m : Memory) (v : VdsoInfo) (i : ℕ) : Option ℕ := entry (m.word (v.chain + 4 * i))

/-- The bucket that a symbol belongs to, by the hash function of the specification. -/
def sysvBucketOf (m : Memory) (v : VdsoInfo) (i : ℕ) : ℕ :=
  (elfHash32 (symbolName m v i)).toNat % v.nbucket

/-- A hash table for the symbols up to `n`: each bucket leads to a chain of its symbols. -/
structure SysvTable (m : Memory) (v : VdsoInfo) (n : ℕ) : Prop where
  nbucket : 0 < v.nbucket
  chains : ∀ b < v.nbucket, ∃ l, Path (sysvNext m v) (entry (m.word (v.bucket + 4 * b))) l ∧
    ∀ i, i ∈ l ↔ i ∈ members (sysvBucketOf m v) 1 n b

/-- A symbol which is defined here and exported. -/
def Provides (m : Memory) (v : VdsoInfo) (defs : List ℕ) (version name : CString) (i : ℕ) : Prop :=
  (symbol m v i).shndx ≠ shnUndef ∧ Exports m v defs version name i

instance : Decidable (Provides m v defs version name i) := inferInstanceAs (Decidable (_ ∧ _))

theorem sysvLoop_eq (hver : v.versym ≠ 0 → VersionTable m v defs) (hk : defs.length ≤ k)
    (fuel : ℕ) : sysvLoop m v k name version (elfHash version) fuel i =
      (search (sysvNext m v) (Provides m v defs version name ·) fuel (entry i)).map
        (answer m v) := by
  induction fuel generalizing i with
  | zero =>
    unfold sysvLoop entry
    split_ifs <;> rfl
  | succ fuel ih =>
    have hhit : (if (symbol m v i).shndx ≠ shnUndef then
        checkSym m v k i name version (elfHash version) else some false) =
        some (decide (Provides m v defs version name i)) := by
      unfold Provides
      rw [checkSym_eq hver hk]
      split_ifs with h <;> simp [h]
    unfold sysvLoop
    by_cases hi : i = 0
    · rw [if_pos hi, entry, if_pos hi]
      rfl
    · rw [if_neg hi, entry, if_neg hi, search]
      dsimp only
      rw [hhit, Option.bind_some]
      by_cases hp : Provides m v defs version name i
      · simp [hp, answer]
      · simp only [hp, decide_false, Bool.false_eq_true, if_false]
        exact ih

theorem Provides.sysvBucket (h : Provides m v defs version name i) :
    sysvBucketOf m v i = (elfHash32 name).toNat % v.nbucket := by
  rw [sysvBucketOf, ← h.2.2.2.1]

/-- Through the other table, the lookup finds a symbol exactly if there is one and the bits which
`elf_hash` carried out of 32 bits do not lead to another bucket. -/
theorem evlLookupVdso_sysv {fuel : ℕ} (hvalid : v.valid = true) (hgnu : v.gnuHash = 0)
    (ht : SysvTable m v n) (hver : v.versym ≠ 0 → VersionTable m v defs) (hn : n ≤ fuel)
    (hdefs : defs.length ≤ fuel) :
    ∃ found, evlLookupVdso m v fuel version name = some (answer m v found) ∧
      (∀ i ∈ found, 1 ≤ i ∧ i < n ∧ Provides m v defs version name i) ∧
      (found.isSome ↔ (elfHash name).toNat % v.nbucket = (elfHash32 name).toNat % v.nbucket ∧
        ∃ i, 1 ≤ i ∧ i < n ∧ Provides m v defs version name i) := by
  let b := (elfHash name).toNat % v.nbucket
  obtain ⟨l, hpath, hl⟩ := ht.chains b (Nat.mod_lt _ ht.nbucket)
  have hmem : ∀ i, i ∈ l ↔ (1 ≤ i ∧ i < n) ∧ sysvBucketOf m v i = b := fun i =>
    (hl i).trans mem_members
  have hlen : l.length ≤ fuel := by
    have hsub : l ⊆ List.range' 1 (n - 1) := fun i hi => by
      obtain ⟨⟨h₁, h₂⟩, -⟩ := (hmem i).mp hi
      exact List.mem_range'_1.mpr ⟨h₁, by omega⟩
    have := (List.subperm_of_subset hpath.nodup hsub).length_le
    rw [List.length_range'] at this
    omega
  refine ⟨l.find? (Provides m v defs version name ·), ?_, ?_, ?_⟩
  · unfold evlLookupVdso
    rw [if_neg (by simp [hvalid]), if_neg (by simp [hgnu])]
    dsimp only
    rw [sysvLoop_eq hver hdefs, search_of_path hpath hlen, Option.map_some]
  · intro i hi
    have hin := (hmem i).mp (List.mem_of_find?_eq_some hi)
    have hp := List.find?_some (Option.mem_def.mp hi)
    exact ⟨hin.1.1, hin.1.2, of_decide_eq_true hp⟩
  · rw [List.find?_isSome]
    constructor
    · rintro ⟨i, hi, hp⟩
      have hprov : Provides m v defs version name i := of_decide_eq_true hp
      obtain ⟨⟨h₁, h₂⟩, hbucket⟩ := (hmem i).mp hi
      exact ⟨hbucket.symm.trans hprov.sysvBucket, i, h₁, h₂, hprov⟩
    · rintro ⟨hsame, i, h₁, h₂, hprov⟩
      exact ⟨i, (hmem i).mpr ⟨⟨h₁, h₂⟩, hprov.sysvBucket.trans hsame.symm⟩,
        decide_eq_true hprov⟩

theorem twoFunctions_sysv : SysvTable twoFunctions withoutGnu 3 where
  nbucket := by decide
  chains b hb := by
    refine ⟨[2, 1], ?_, fun i => ?_⟩
    · rw [show b = 0 from Nat.lt_one_iff.mp hb]
      exact ⟨rfl, rfl, rfl⟩
    · rw [show b = 0 from Nat.lt_one_iff.mp hb,
        show members (sysvBucketOf twoFunctions withoutGnu) 1 3 0 = [1, 2] by decide]
      simp [or_comm]

theorem evlLookupVdso_sysv_two :
    ∃ found, evlLookupVdso twoFunctions withoutGnu 8 [118] [97] =
        some (answer twoFunctions withoutGnu found) ∧ found.isSome := by
  obtain ⟨found, hrun, -, hsome⟩ := @evlLookupVdso_sysv twoFunctions withoutGnu [11096, 11116] 3
    [118] [97] 8 rfl rfl twoFunctions_sysv (fun _ => ⟨twoFunctions_versions.path, by decide⟩)
    (by decide) (by decide)
  exact ⟨found, hrun, hsome.mpr ⟨by decide, 1, by decide, by decide, by decide⟩⟩

end Sysv

section Agree

variable {m : Memory} {v w : VdsoInfo} {defs : List ℕ} {n : ℕ} {version name : CString}

/-- Two descriptions of one object, which differ in their hash tables alone. -/
structure SameObject (v w : VdsoInfo) : Prop where
  loadOffset : v.loadOffset = w.loadOffset
  symtab : v.symtab = w.symtab
  symstrings : v.symstrings = w.symstrings
  versym : v.versym = w.versym
  verdef : v.verdef = w.verdef

theorem SameObject.exports (h : SameObject v w) (i : ℕ) :
    Exports m v defs version name i ↔ Exports m w defs version name i := by
  have hname : verdefName m v = verdefName m w := by
    funext d
    rw [verdefName, verdefName, h.symstrings]
  unfold Exports versionName symbolName symbol
  rw [h.symtab, h.symstrings, h.versym, hname]

theorem SameObject.answer (h : SameObject v w) (found : Option ℕ) :
    answer m v found = answer m w found := by
  cases found with
  | none => rfl
  | some i => simp [Vdso.answer, symbolAddr, symbol, h.loadOffset, h.symtab]

theorem SameObject.versionTable (h : SameObject v w) (ht : VersionTable m v defs) :
    VersionTable m w defs := by
  refine ⟨h.verdef ▸ ht.path, fun d hd => ?_⟩
  rw [ht.hashes d hd, verdefName, verdefName, h.symstrings]

/-- Both tables of an object lead to the same function. -/
theorem evlLookupVdso_agree {fuel : ℕ} (h : SameObject v w)
    (hv : v.valid = true ∧ v.gnuHash ≠ 0 ∧ GnuTable m v n)
    (hw : w.valid = true ∧ w.gnuHash = 0 ∧ SysvTable m w n)
    (hver : v.versym ≠ 0 → VersionTable m v defs) (hn : n ≤ fuel) (hdefs : defs.length ≤ fuel)
    (hhashed : ∀ i, 1 ≤ i → i < n →
      (Provides m v defs version name i ↔ gnuOffset m v ≤ i ∧ Exports m v defs version name i))
    (hone : ∀ i j, i < n → j < n → Provides m v defs version name i →
      Provides m v defs version name j → i = j)
    (hcarry : (elfHash name).toNat % w.nbucket = (elfHash32 name).toNat % w.nbucket) :
    evlLookupVdso m v fuel version name = evlLookupVdso m w fuel version name := by
  have hprov : ∀ i, Provides m w defs version name i ↔ Provides m v defs version name i := by
    intro i
    rw [Provides, Provides, h.exports, symbol, symbol, h.symtab]
  obtain ⟨found, hrun, hsound, hsome⟩ := @evlLookupVdso_sysv m w defs n version name fuel
    hw.1 hw.2.1 hw.2.2 (fun hw => h.versionTable (hver (h.versym ▸ hw))) hn hdefs
  rw [hrun, evlLookupVdso_gnu hv.1 hv.2.1 hv.2.2 hver hn hdefs, ← h.answer]
  congr 2
  have hpos := hv.2.2.offset
  cases hfind : (List.range' (gnuOffset m v) (n - gnuOffset m v)).find?
      (Exports m v defs version name ·) with
  | none =>
    cases found with
    | none => rfl
    | some i =>
      obtain ⟨h₁, h₂, hp⟩ := hsound i rfl
      obtain ⟨hlo, hexp⟩ := (hhashed i h₁ h₂).mp ((hprov i).mp hp)
      have hnot := List.find?_eq_none.mp hfind i (List.mem_range'_1.mpr ⟨hlo, by omega⟩)
      exact absurd (decide_eq_true hexp) hnot
  | some i =>
    have hexp : Exports m v defs version name i := by simpa using List.find?_some hfind
    obtain ⟨hlo, hhi⟩ := List.mem_range'_1.mp (List.mem_of_find?_eq_some hfind)
    have hp : Provides m v defs version name i := (hhashed i (by omega) (by omega)).mpr ⟨hlo, hexp⟩
    have hsome' := hsome.mpr ⟨hcarry, i, by omega, by omega, (hprov i).mpr hp⟩
    obtain ⟨j, rfl⟩ := Option.isSome_iff_exists.mp hsome'
    obtain ⟨-, hj, hpj⟩ := hsound j rfl
    rw [hone i j (by omega) hj hp ((hprov j).mp hpj)]

theorem evlLookupVdso_agree_two : evlLookupVdso twoFunctions withGnu 8 [118] [98] =
    evlLookupVdso twoFunctions withoutGnu 8 [118] [98] := by
  refine evlLookupVdso_agree (n := 3) ⟨rfl, rfl, rfl, rfl, rfl⟩ ⟨rfl, by decide, twoFunctions_gnu⟩
    ⟨rfl, rfl, twoFunctions_sysv⟩ (fun _ => twoFunctions_versions) (by decide) (by decide) ?_ ?_
    (by decide)
  · intro i h₁ h₂
    interval_cases i <;> decide
  · intro i j hi hj
    interval_cases i <;> interval_cases j <;> decide

end Agree

end Libevl.Vdso
