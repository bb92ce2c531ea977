import Libevl.BucketIndex
import Mathlib.Algebra.Group.Nat.Defs
import Mathlib.Data.Int.Notation

/-!
# Symbols of the vDSO

`vdso_init_from_sysinfo_ehdr` looks for the tables of a shared object that is
mapped at some address, and `evl_lookup_vdso` searches them for a function by
name and version, through the GNU hash table if there is one. Memory is what can
be read at an address as one of the structures of `elf.h`. Words have 64 bits;
pointers are addresses, and a typed pointer advances by the size of its target.
-/
namespace Libevl.Vdso
open ForwardList BucketIndex

/-- A C string without its terminator. -/
abbrev CString := List (BitVec 8)

structure Ehdr where
  identClass : ℕ
  phoff : ℕ
  phnum : ℕ
  deriving DecidableEq, Repr

structure Phdr where
  type : ℕ
  offset : ℕ
  vaddr : ℕ
  deriving DecidableEq, Repr

structure Dyn where
  tag : ℤ
  ptr : ℕ
  deriving DecidableEq, Repr

structure Sym where
  name : ℕ
  info : ℕ
  shndx : ℕ
  value : ℕ
  deriving DecidableEq, Repr

structure Verdef where
  flags : ℕ
  ndx : ℕ
  hash : ℕ
  aux : ℕ
  next : ℕ
  deriving DecidableEq, Repr

/-- What is read at an address. `word` and `versym` are the plain integers of these types, and
`verdaux` is the name offset of an auxiliary version entry. -/
structure Memory where
  ehdr : ℕ → Ehdr
  phdr : ℕ → Phdr
  dyn : ℕ → Dyn
  word : ℕ → ℕ
  sym : ℕ → Sym
  versym : ℕ → ℕ
  verdef : ℕ → Verdef
  verdaux : ℕ → ℕ
  str : ℕ → CString

def elfClass64 : ℕ := 2
def ptLoad : ℕ := 1
def ptDynamic : ℕ := 2
def dtNull : ℤ := 0
def dtHash : ℤ := 4
def dtStrtab : ℤ := 5
def dtSymtab : ℤ := 6
def dtGnuHash : ℤ := 0x6ffffef5
def dtVersym : ℤ := 0x6ffffff0
def dtVerdef : ℤ := 0x6ffffffc
def sttFunc : ℕ := 2
def stbGlobal : ℕ := 1
def stbWeak : ℕ := 2
def shnUndef : ℕ := 0
def verFlgBase : ℕ := 1

/-- `struct vdso_info`. -/
structure VdsoInfo where
  valid : Bool
  loadAddr : ℕ
  loadOffset : ℕ
  symtab : ℕ
  symstrings : ℕ
  gnuHash : ℕ
  gnuBucket : ℕ
  bucket : ℕ
  chain : ℕ
  nbucket : ℕ
  nchain : ℕ
  versym : ℕ
  verdef : ℕ
  deriving DecidableEq, Repr

/-- The loop of `elf_hash` on words of some width. -/
def hashStep (w : ℕ) (h : BitVec w) (c : BitVec 8) : BitVec w :=
  let h := (h <<< 4) + c.setWidth w
  let g := h &&& BitVec.ofNat w 0xf0000000
  let h := if g ≠ 0 then h ^^^ (g >>> 24) else h
  h &&& ~~~g

/-- `elf_hash`; an `unsigned long` has 64 bits. -/
def elfHash (name : CString) : BitVec 64 := name.foldl (hashStep 64) 0

/-- The hash function of the ELF specification, whose words have 32 bits. -/
def elfHash32 (name : CString) : BitVec 32 := name.foldl (hashStep 32) 0

/-- `gnu_hash`. -/
def gnuHashOf (name : CString) : BitVec 32 :=
  name.foldl (fun h c => h + (h * 32 + c.setWidth 32)) 5381

/-- The state of the first loop of `vdso_init_from_sysinfo_ehdr`. -/
structure Segments where
  info : VdsoInfo
  foundVaddr : Bool
  dyn : ℕ
  deriving DecidableEq, Repr

/-- One program header. -/
def scanSegment (base : ℕ) (s : Segments) (p : Phdr) : Segments :=
  if p.type = ptLoad ∧ s.foundVaddr = false then
    { s with
      foundVaddr := true
      info := { s.info with loadOffset := (base + p.offset + (2 ^ 64 - p.vaddr)) % 2 ^ 64 } }
  else if p.type = ptDynamic then { s with dyn := (base + p.offset) % 2 ^ 64 }
  else s

/-- One entry of the dynamic table; `hash` is kept beside the info. -/
def scanEntry (s : VdsoInfo × ℕ) (e : Dyn) : VdsoInfo × ℕ :=
  let at_ := (e.ptr + s.1.loadOffset) % 2 ^ 64
  if e.tag = dtStrtab then ({ s.1 with symstrings := at_ }, s.2)
  else if e.tag = dtSymtab then ({ s.1 with symtab := at_ }, s.2)
  else if e.tag = dtHash then (s.1, at_)
  else if e.tag = dtGnuHash then ({ s.1 with gnuHash := at_ }, s.2)
  else if e.tag = dtVersym then ({ s.1 with versym := at_ }, s.2)
  else if e.tag = dtVerdef then ({ s.1 with verdef := at_ }, s.2)
  else s

/-- The loop over the dynamic table. -/
def scanDynamic (m : Memory) : ℕ → ℕ → VdsoInfo × ℕ → Option (VdsoInfo × ℕ)
  | 0, _, _ => none
  | fuel + 1, d, s =>
    if (m.dyn d).tag = dtNull then some s
    else scanDynamic m fuel (d + 16) (scanEntry s (m.dyn d))

/-- What follows once the dynamic table is read. -/
def parseTables (m : Memory) (s : VdsoInfo × ℕ) : VdsoInfo :=
  let (info, hash) := s
  if info.symstrings = 0 ∨ info.symtab = 0 ∨ (hash = 0 ∧ info.gnuHash = 0) then info
  else
    let info := if info.verdef = 0 then { info with versym := 0 } else info
    let info :=
      if info.gnuHash ≠ 0 then
        { info with
          nbucket := m.word info.gnuHash
          gnuBucket := info.gnuHash + 4 * (4 + 2 * m.word (info.gnuHash + 8)) }
      else
        { info with
          nbucket := m.word hash
          nchain := m.word (hash + 4)
          bucket := hash + 8
          chain := hash + 4 * ((m.word hash + 2) % 2 ^ 32) }
    { info with valid := true }

/-- `vdso_init_from_sysinfo_ehdr`. -/
def vdsoInitFromSysinfoEhdr (m : Memory) (fuel : ℕ) (info : VdsoInfo) (base : ℕ) :
    Option VdsoInfo :=
  let info := { info with valid := false, loadAddr := base }
  let hdr := m.ehdr base
  if hdr.identClass ≠ elfClass64 then some info
  else
    let pt := (base + hdr.phoff) % 2 ^ 64
    let s := ((List.range hdr.phnum).map fun i => m.phdr (pt + 56 * i)).foldl
      (scanSegment base) ⟨info, false, 0⟩
    if s.foundVaddr = false ∨ s.dyn = 0 then some s.info
    else do
      let info := { s.info with
        symstrings := 0, gnuHash := 0, symtab := 0, versym := 0, verdef := 0 }
      let r ← scanDynamic m fuel s.dyn (info, 0)
      return parseTables m r

section Lookup

variable (m : Memory) (v : VdsoInfo)

/-- The first loop of `vdso_match_version`. -/
def findVerdef (ver : ℕ) : ℕ → ℕ → Option (Option ℕ)
  | 0, _ => none
  | fuel + 1, d =>
    if (m.verdef d).flags &&& verFlgBase = 0 ∧ (m.verdef d).ndx &&& 0x7fff = ver then some (some d)
    else if (m.verdef d).next = 0 then some none
    else findVerdef ver fuel (d + (m.verdef d).next)

/-- The name of a version definition. -/
def verdefName (d : ℕ) : CString := m.str (v.symstrings + m.verdaux (d + (m.verdef d).aux))

/-- `vdso_match_version`. -/
def vdsoMatchVersion (fuel ver : ℕ) (name : CString) (hash : ℕ) : Option Bool := do
  let d ← findVerdef m (ver &&& 0x7fff) fuel v.verdef
  match d with
  | none => return false
  | some d => return (m.verdef d).hash = hash && name = verdefName m v d

def symbol (i : ℕ) : Sym := m.sym (v.symtab + 24 * i)
def symbolName (i : ℕ) : CString := m.str (v.symstrings + (symbol m v i).name)

/-- `(void *)(vdso_info.load_offset + sym->st_value)`. -/
def symbolAddr (i : ℕ) : ℕ := (v.loadOffset + (symbol m v i).value) % 2 ^ 64

/-- `check_sym`; the version hash becomes a word when it is passed on. -/
def checkSym (fuel i : ℕ) (name version : CString) (verHash : BitVec 64) : Option Bool :=
  let sym := symbol m v i
  if sym.info &&& 0xf ≠ sttFunc then some false
  else if sym.info >>> 4 ≠ stbGlobal ∧ sym.info >>> 4 ≠ stbWeak then some false
  else if name ≠ symbolName m v i then some false
  else if v.versym ≠ 0 then
    vdsoMatchVersion m v fuel (m.versym (v.versym + 2 * i)) version (verHash.setWidth 32).toNat
  else some true

/-- The loop over a chain of the GNU hash table; `h1` has its lowest bit set. -/
def gnuLoop (k h1 : ℕ) (name version : CString) (verHash : BitVec 64) : ℕ → ℕ → ℕ → Option ℕ
  | 0, _, _ => none
  | fuel + 1, hashval, i =>
    let h2 := m.word hashval
    (if h1 = h2 ||| 1 then checkSym m v k i name version verHash else some false).bind fun hit =>
      if hit then some (symbolAddr m v i)
      else if h2 &&& 1 ≠ 0 then some 0
      else gnuLoop k h1 name version verHash fuel (hashval + 4) ((i + 1) % 2 ^ 32)

/-- The loop over a chain of the other hash table. -/
def sysvLoop (k : ℕ) (name version : CString) (verHash : BitVec 64) : ℕ → ℕ → Option ℕ
  | fuel, i =>
    if i = 0 then some 0
    else match fuel with
      | 0 => none
      | fuel + 1 =>
        (if (symbol m v i).shndx ≠ shnUndef then checkSym m v k i name version verHash
          else some false).bind fun hit =>
          if hit then some (symbolAddr m v i)
          else sysvLoop k name version verHash fuel (m.word (v.chain + 4 * i))

/-- `evl_lookup_vdso`: an address, or 0. Each loop may take so many turns. -/
def evlLookupVdso (fuel : ℕ) (version name : CString) : Option ℕ :=
  if v.valid = false then some 0
  else
    let verHash := elfHash version
    if v.gnuHash ≠ 0 then
      let h1 := (gnuHashOf name).toNat
      let i := m.word (v.gnuBucket + 4 * (h1 % v.nbucket))
      if i = 0 then some 0
      else
        let off := m.word (v.gnuHash + 4)
        let hashval := v.gnuBucket + 4 * v.nbucket + 4 * ((i + (2 ^ 32 - off)) % 2 ^ 32)
        gnuLoop m v fuel (h1 ||| 1) name version verHash fuel hashval i
    else
      let i := m.word (v.bucket + 4 * ((elfHash name).toNat % v.nbucket))
      sysvLoop m v fuel name version verHash fuel i

end Lookup

end Libevl.Vdso
