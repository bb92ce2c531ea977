import Libevl.AvlTree
import Mathlib.Data.Nat.Log

/-!
# The heap

Pages of 512 = 2^9 bytes (`EVL_HEAP_PAGE_SHIFT`) are cut out of free ranges, or
into blocks of 16 = 2^4 (`EVL_HEAP_MIN_LOG2`) to 256 bytes which are handed out
from `EVL_HEAP_MAX_BUCKETS` = 5 page lists. A `size_t` is a number below 2^64,
a page number an `int`. Pagemap and bucket indices out of range are faults.
-/
namespace Libevl.Heap
open AvlTree

/-- How the library is built, and which integers it computes with. -/
structure Cfg where
  /-- `__OPTIMIZE__` is not defined: assertions and page marking are compiled in. -/
  debug : Bool
  /-- Page numbers and addresses never wrap. -/
  exact : Bool
  deriving DecidableEq, Repr

/-- A conversion to `int`. -/
def Cfg.int (c : Cfg) (x : ℤ) : ℤ := if c.exact then x else x.bmod (2 ^ 32)

/-- Sums and differences of `size_t`. -/
def sizeAdd (a b : ℕ) : ℕ := (a + b) % 2 ^ 64

def sizeSub (a b : ℕ) : ℕ := (a + (2 ^ 64 - b)) % 2 ^ 64

/-- `__align_to`, for a power of two. -/
def alignTo (size al : ℕ) : ℕ := sizeAdd size (al - 1) - sizeAdd size (al - 1) % al

/-- `__lzcount` of a `size_t`. -/
def lzcount (x : ℕ) : ℕ := if x = 0 then 64 else 63 - Nat.log2 x

/-- `__tzcount` of a `uint32_t`. -/
def tzcount (x : BitVec 32) : ℕ := ((List.range 32).find? fun i => x.getLsbD i).getD 32

/-- `gen_block_mask`. -/
def genBlockMask (log2size : ℕ) : BitVec 32 :=
  BitVec.allOnes 32 >>> (32 - (512 >>> log2size))

/-- `EINVAL`. -/
def einval : ℤ := 22

/-- `enum evl_heap_pgtype`. -/
def pageFree : ℕ := 0
def pageCont : ℕ := 1
def pageList : ℕ := 2

/-- `struct evl_heap_pgentry`; `map` also holds `bsize`. -/
structure HeapPgentry where
  prev : ℤ
  next : ℤ
  type : ℕ
  map : BitVec 32
  deriving DecidableEq, Repr

def HeapPgentry.bsize (e : HeapPgentry) : ℕ := e.map.toNat

/-- Links are stored on `EVL_HEAP_PGENT_BITS` = 23 bits. -/
def HeapPgentry.setPrev (e : HeapPgentry) (pg : ℤ) : HeapPgentry := { e with prev := pg % 2 ^ 23 }
def HeapPgentry.setNext (e : HeapPgentry) (pg : ℤ) : HeapPgentry := { e with next := pg % 2 ^ 23 }
def HeapPgentry.setType (e : HeapPgentry) (type : ℕ) : HeapPgentry := { e with type := type }
def HeapPgentry.setMap (e : HeapPgentry) (map : BitVec 32) : HeapPgentry := { e with map := map }

/-- `struct evl_heap_extent`, located at `mem`, with the memory behind it: its page map of
`nrpages` entries and the descriptors of its free ranges, which are named by their addresses. -/
structure HeapExtent where
  mem : ℤ
  membase : ℤ
  memlim : ℤ
  nrpages : ℤ
  pagemap : ℤ → HeapPgentry
  addrTree : Avl ℤ
  sizeTree : Avl ℤ
  size : ℤ → ℕ

/-- The page `page` of the extent at `ext` was found by following a bucket head or a link in
the list of the pages with blocks of `2 ^ log2size` bytes. -/
structure Use where
  ext : ℤ
  page : ℤ
  log2size : ℕ
  deriving DecidableEq, Repr

/-- `struct evl_heap`, and the uses of bucket heads and page links. An empty list is -1. -/
structure EvlHeap where
  extents : List HeapExtent
  rawSize : ℕ
  usableSize : ℕ
  usedSize : ℕ
  buckets : ℕ → ℤ
  uses : List Use

namespace HeapExtent

def withAddrTree (ext : HeapExtent) (t : Avl ℤ) : HeapExtent := { ext with addrTree := t }
def withSizeTree (ext : HeapExtent) (t : Avl ℤ) : HeapExtent := { ext with sizeTree := t }

def withPagemap (ext : HeapExtent) (m : ℤ → HeapPgentry) : HeapExtent := { ext with pagemap := m }

def setSize (ext : HeapExtent) (range : ℤ) (size : ℕ) : HeapExtent :=
  { ext with size := Function.update ext.size range size }

/-- `ext->pagemap[pg]`. -/
def entry (ext : HeapExtent) (pg : ℤ) : Except Fault HeapPgentry :=
  if 0 ≤ pg ∧ pg < ext.nrpages then .ok (ext.pagemap pg) else .error .page

def modify (ext : HeapExtent) (pg : ℤ) (f : HeapPgentry → HeapPgentry) :
    Except Fault HeapExtent := do
  let e ← ext.entry pg
  return ext.withPagemap (Function.update ext.pagemap pg (f e))

def setPrev (ext : HeapExtent) (pg prev : ℤ) : Except Fault HeapExtent :=
  ext.modify pg (·.setPrev prev)

def setNext (ext : HeapExtent) (pg next : ℤ) : Except Fault HeapExtent :=
  ext.modify pg (·.setNext next)

def setType (ext : HeapExtent) (pg : ℤ) (type : ℕ) : Except Fault HeapExtent :=
  ext.modify pg (·.setType type)

def setMap (ext : HeapExtent) (pg : ℤ) (map : BitVec 32) : Except Fault HeapExtent :=
  ext.modify pg (·.setMap map)

end HeapExtent

namespace EvlHeap

/-- `heap->buckets[ilog]`. -/
def bucket (h : EvlHeap) (ilog : ℕ) : Except Fault ℤ :=
  if ilog < 5 then .ok (h.buckets ilog) else .error .bucket

def setBucket (h : EvlHeap) (ilog : ℕ) (pg : ℤ) : EvlHeap :=
  { h with buckets := Function.update h.buckets ilog pg }

def setExtent (h : EvlHeap) (j : ℕ) (ext : HeapExtent) : EvlHeap :=
  { h with extents := h.extents.set j ext }

def withExtents (h : EvlHeap) (exts : List HeapExtent) : EvlHeap := { h with extents := exts }

def withUsed (h : EvlHeap) (used : ℕ) : EvlHeap := { h with usedSize := used }

def withUses (h : EvlHeap) (uses : List Use) : EvlHeap := { h with uses := uses }

def touch (h : EvlHeap) (ext : HeapExtent) (pg : ℤ) (log2size : ℕ) : EvlHeap :=
  h.withUses (⟨ext.mem, pg, log2size⟩ :: h.uses)

end EvlHeap

variable (c : Cfg)

/-- `addr_to_pagenr`. -/
def addrToPagenr (ext : HeapExtent) (p : ℤ) : ℤ := c.int ((p - ext.membase) / 512)

/-- `pagenr_to_addr`. -/
def pagenrToAddr (ext : HeapExtent) (pg : ℤ) : ℤ := ext.membase + c.int (pg * 512)

/-- `page_is_valid`. -/
def pageIsValid (ext : HeapExtent) (pg : ℤ) : Except Fault Bool :=
  if c.debug then do
    let e ← ext.entry pg
    return e.type ≠ pageFree ∧ e.type ≠ pageCont
  else .ok true

def markLoop (type : ℕ) : ℕ → HeapExtent → ℤ → Except Fault HeapExtent
  | 0, ext, _ => .ok ext
  | n + 1, ext, pg => do
    let ext ← ext.setType pg type
    markLoop type n ext (pg + 1)

/-- `mark_pages`. -/
def markPages (ext : HeapExtent) (pg nrpages : ℤ) (type : ℕ) : Except Fault HeapExtent :=
  if c.debug then markLoop type nrpages.toNat ext pg else .ok ext

/-- `compare_range_by_size`, of a range of `size` bytes with a linked one. -/
def compareRangeBySize (ext : HeapExtent) (size : ℕ) (r : ℤ) : ℤ :=
  (((size : ℤ) - ext.size r).bmod (2 ^ 64)).sign

/-- `compare_range_by_addr`. -/
def compareRangeByAddr (l r : ℤ) : ℤ := (l - r).sign

/-- `container_of`, on what a search of a tree returns. -/
def containerOf (r : Option (Ref ℤ)) : Except Fault (Option ℤ) :=
  match r with
  | none => .ok none
  | some (.node a) => .ok (some a)
  | some .anchor => .error .wild

/-- `find_suitable_range`. -/
def findSuitableRange (ext : HeapExtent) (size : ℕ) : Except Fault (Option ℤ) := do
  containerOf (← avlSearchGe ext.sizeTree (compareRangeBySize ext size))

/-- `reserve_page_range`. -/
def reservePageRange (ext : HeapExtent) (size : ℕ) : Except Fault (HeapExtent × ℤ) := do
  match ← findSuitableRange ext size with
  | none => return (ext, -1)
  | some new =>
    let ext := ext.withSizeTree (← avlDelete ext.sizeTree (.node new))
    if ext.size new = size then
      let ext := ext.withAddrTree (← avlDelete ext.addrTree (.node new))
      return (ext, addrToPagenr c ext new)
    else
      let splitr := new
      let ext := ext.setSize splitr (sizeSub (ext.size splitr) size)
      let new := splitr + ext.size splitr
      let t := avlhInit ext.sizeTree (.node splitr)
      let t ← avlInsertBack t (.node splitr) (compareRangeBySize ext (ext.size splitr))
      return (ext.withSizeTree t, addrToPagenr c ext new)

/-- `find_left_neighbour`. -/
def findLeftNeighbour (ext : HeapExtent) (r : ℤ) : Except Fault (Option ℤ) := do
  containerOf (← avlSearchLe ext.addrTree (compareRangeByAddr r))

/-- `find_right_neighbour`. -/
def findRightNeighbour (ext : HeapExtent) (r : ℤ) : Except Fault (Option ℤ) := do
  containerOf (← avlSearchGe ext.addrTree (compareRangeByAddr r))

/-- `find_next_neighbour`. -/
def findNextNeighbour (ext : HeapExtent) (r : ℤ) : Except Fault (Option ℤ) := do
  containerOf (← avlNext ext.addrTree (.node r))

/-- `ranges_mergeable`. -/
def rangesMergeable (ext : HeapExtent) (left right : ℤ) : Bool := left + ext.size left = right

/-- The second half of `release_page_range`: the merge with the right neighbour. -/
def releaseRight (ext : HeapExtent) (freed : ℤ) (addrLinked : Bool) (left right : Option ℤ) :
    Except Fault HeapExtent := do
  match right.filter (rangesMergeable ext freed) with
  | some right =>
    let ext := ext.withSizeTree (← avlDelete ext.sizeTree (.node right))
    let ext := ext.setSize freed (sizeAdd (ext.size freed) (ext.size right))
    if addrLinked then
      return ext.withAddrTree (← avlDelete ext.addrTree (.node right))
    else
      return ext.withAddrTree (← avlReplace c.debug ext.addrTree (.node right) (.node freed)
        (compareRangeByAddr freed))
  | none =>
    if addrLinked then return ext
    else
      let t := avlhInit ext.addrTree (.node freed)
      if left.isSome then
        return ext.withAddrTree (← avlInsert c.debug t (.node freed) (compareRangeByAddr freed))
      else
        return ext.withAddrTree (← avlPrepend c.debug t (.node freed) (compareRangeByAddr freed))

/-- The first half of `release_page_range`: the merge with the left neighbour. It returns the
range to link and whether the address tree links it already. -/
def releaseLeft (ext : HeapExtent) (freed : ℤ) :
    Except Fault (HeapExtent × ℤ × Bool × Option ℤ × Option ℤ) := do
  let left ← findLeftNeighbour ext freed
  match left.filter (rangesMergeable ext · freed) with
  | some l =>
    let ext := ext.withSizeTree (← avlDelete ext.sizeTree (.node l))
    let ext := ext.setSize l (sizeAdd (ext.size l) (ext.size freed))
    return (ext, l, true, left, ← findNextNeighbour ext l)
  | none => return (ext, freed, false, left, ← findRightNeighbour ext freed)

/-- `release_page_range`. -/
def releasePageRange (ext : HeapExtent) (page : ℤ) (size : ℕ) : Except Fault HeapExtent := do
  let (ext, freed, addrLinked, left, right) ← releaseLeft (ext.setSize page size) page
  let ext ← releaseRight c ext freed addrLinked left right
  let t := avlhInit ext.sizeTree (.node freed)
  let t ← avlInsertBack t (.node freed) (compareRangeBySize ext (ext.size freed))
  let ext := ext.withSizeTree t
  markPages c ext (addrToPagenr c ext page) (c.int (size / 512 : ℕ)) pageFree

/-- `add_page_front`. -/
def addPageFront (h : EvlHeap) (ext : HeapExtent) (pg : ℤ) (log2size : ℕ) :
    Except Fault (EvlHeap × HeapExtent) := do
  let ilog := log2size - 4
  let head ← h.bucket ilog
  if head = -1 then
    let ext ← ext.setNext pg pg
    let ext ← ext.setPrev pg pg
    return (h.setBucket ilog pg, ext)
  else
    let h := h.touch ext head log2size
    let ext ← ext.setPrev pg head
    let ext ← ext.setNext pg (← ext.entry head).next
    let next := (← ext.entry pg).next
    let h := h.touch ext next log2size
    let ext ← ext.setPrev next pg
    let ext ← ext.setNext head pg
    return (h.setBucket ilog pg, ext)

/-- `remove_page`. -/
def removePage (h : EvlHeap) (ext : HeapExtent) (pg : ℤ) (log2size : ℕ) :
    Except Fault (EvlHeap × HeapExtent) := do
  let ilog := log2size - 4
  let head ← h.bucket ilog
  let old ← ext.entry pg
  if pg = old.next then
    return (h.setBucket ilog (-1), ext)
  else
    let h := if pg = head then h.setBucket ilog old.next else h
    let h := h.touch ext old.prev log2size
    let ext ← ext.setNext old.prev old.next
    let h := h.touch ext old.next log2size
    let ext ← ext.setPrev old.next old.prev
    return (h, ext)

/-- `move_page_front`. -/
def movePageFront (h : EvlHeap) (ext : HeapExtent) (pg : ℤ) (log2size : ℕ) :
    Except Fault (EvlHeap × HeapExtent) := do
  if (← h.bucket (log2size - 4)) = pg then
    return (h, ext)
  else
    let (h, ext) ← removePage h ext pg log2size
    addPageFront h ext pg log2size

/-- `move_page_back`. -/
def movePageBack (h : EvlHeap) (ext : HeapExtent) (pg : ℤ) (log2size : ℕ) :
    Except Fault (EvlHeap × HeapExtent) := do
  if pg = (← ext.entry pg).next then
    return (h, ext)
  else
    let (h, ext) ← removePage h ext pg log2size
    let head ← h.bucket (log2size - 4)
    let h := h.touch ext head log2size
    let last := (← ext.entry head).prev
    let h := h.touch ext last log2size
    let ext ← ext.setPrev pg last
    let next := (← ext.entry last).next
    let ext ← ext.setNext pg next
    let h := h.touch ext next log2size
    let ext ← ext.setPrev next pg
    let ext ← ext.setNext last pg
    return (h, ext)

/-- The scan of `add_free_range`: the extents after it, and where pages were found. -/
def reserveScan (rsize : ℕ) : List HeapExtent → Except Fault (List HeapExtent × Option (ℕ × ℤ))
  | [] => .ok ([], none)
  | ext :: rest => do
    let (ext, pg) ← reservePageRange c ext rsize
    if 0 ≤ pg then return (ext :: rest, some (0, pg))
    else
      let (rest, found) ← reserveScan rsize rest
      return (ext :: rest, found.map fun (j, pg) => (j + 1, pg))

/-- What `add_free_range` does with the pages found in an extent. -/
def claimPages (h : EvlHeap) (ext : HeapExtent) (pg : ℤ) (bsize log2size : ℕ) :
    Except Fault (EvlHeap × HeapExtent) := do
  if log2size ≠ 0 then
    let ext ← ext.setType pg log2size
    let ext ← ext.setMap pg (~~~ genBlockMask log2size ||| 1#32)
    addPageFront h ext pg log2size
  else
    let ext ← ext.setType pg pageList
    let ext ← ext.setMap pg (BitVec.ofNat 32 bsize)
    let ext ← markPages c ext (pg + 1) (c.int ((bsize / 512 : ℕ) - 1)) pageCont
    return (h, ext)

/-- `add_free_range`. -/
def addFreeRange (h : EvlHeap) (bsize log2size : ℕ) : Except Fault (EvlHeap × Option ℤ) := do
  let (exts, found) ← reserveScan c (alignTo bsize 512) h.extents
  let h := h.withExtents exts
  match found with
  | none => return (h, none)
  | some (j, pg) =>
    match exts[j]? with
    | none => .error .wild
    | some ext =>
      let (h, ext) ← claimPages c h ext pg bsize log2size
      let h := (h.setExtent j ext).withUsed (sizeAdd h.usedSize bsize)
      return (h, some (pagenrToAddr c ext pg))

/-- The rounded size of a request and its log2. -/
def blockSize (size : ℕ) : ℕ × ℕ :=
  if size < 16 then (16, 4)
  else
    let log2size := 64 - 1 - lzcount size
    if log2size < 9 then
      let log2size := if size &&& (size - 1) ≠ 0 then log2size + 1 else log2size
      (1 <<< log2size, log2size)
    else (alignTo size 512, log2size)

/-- The loop of `evl_alloc_block_unlocked`. It is left when the page at the head of the list
is full, and goes on to the next extent only while the list is empty. -/
def bucketScan (bsize log2size : ℕ) (h : EvlHeap) :
    ℕ → List HeapExtent → Except Fault (EvlHeap × Option ℤ)
  | _, [] => .ok (h, none)
  | j, ext :: rest => do
    let pg ← h.bucket (log2size - 4)
    if pg < 0 then bucketScan bsize log2size h (j + 1) rest
    else
      let h := h.touch ext pg log2size
      let bmask := (← ext.entry pg).map
      if bmask = BitVec.allOnes 32 then return (h, none)
      else
        let b := tzcount (~~~ bmask)
        let bmask := bmask ||| (1#32 <<< b)
        let ext ← ext.setMap pg bmask
        let h := h.withUsed (sizeAdd h.usedSize bsize)
        let block := ext.membase + c.int (pg * 512) + (b <<< log2size : ℕ)
        let (h, ext) ←
          if bmask = BitVec.allOnes 32 then movePageBack h ext pg log2size else .ok (h, ext)
        return (h.setExtent j ext, some block)

/-- `evl_alloc_block_unlocked`. -/
def evlAllocBlockUnlocked (h : EvlHeap) (size : ℕ) : Except Fault (EvlHeap × Option ℤ) := do
  if size = 0 then return (h, none)
  else
    let (bsize, log2size) := blockSize size
    if bsize < 512 then
      AvlTree.assert c.debug (4 ≤ log2size ∧ log2size - 4 < 5)
      let (h, block) ← bucketScan c bsize log2size h 0 h.extents
      match block with
      | some block => return (h, some block)
      | none => addFreeRange c h bsize log2size
    else addFreeRange c h bsize 0

/-- The extent in which an address lies. -/
def findExtent (block : ℤ) : List HeapExtent → Option (ℕ × HeapExtent)
  | [] => none
  | ext :: rest =>
    if ext.membase ≤ block ∧ block < ext.memlim then some (0, ext)
    else (findExtent block rest).map fun (j, ext) => (j + 1, ext)

/-- What `evl_free_block_unlocked` does with a block of `2 ^ log2size` bytes. -/
def freeBucketed (h : EvlHeap) (ext : HeapExtent) (pg : ℤ) (n log2size : ℕ) :
    Except Fault (EvlHeap × HeapExtent) := do
  let oldmap := (← ext.entry pg).map
  let map := oldmap &&& ~~~ (1#32 <<< n)
  let ext ← ext.setMap pg map
  if map = ~~~ genBlockMask log2size then
    let (h, ext) ← removePage h ext pg log2size
    return (h, ← releasePageRange c ext (pagenrToAddr c ext pg) 512)
  else if oldmap = BitVec.allOnes 32 then movePageFront h ext pg log2size
  else return (h, ext)

/-- `evl_free_block_unlocked`. -/
def evlFreeBlockUnlocked (h : EvlHeap) (block : ℤ) : Except Fault (EvlHeap × ℤ) := do
  match findExtent block h.extents with
  | none => return (h, -einval)
  | some (j, ext) =>
    let pgoff := (block - ext.membase).toNat
    let pg : ℤ := (pgoff / 512 : ℕ)
    if ← pageIsValid c ext pg then
      let e ← ext.entry pg
      if e.type = pageList then
        AvlTree.assert c.debug (e.bsize % 512 = 0)
        let ext ← releasePageRange c ext (pagenrToAddr c ext pg) e.bsize
        return ((h.setExtent j ext).withUsed (sizeSub h.usedSize e.bsize), 0)
      else
        let bsize := 1 <<< e.type
        AvlTree.assert c.debug (bsize < 512)
        let boff := pgoff % 512
        if boff % bsize ≠ 0 then return (h, -einval)
        else
          let (h, ext) ← freeBucketed c h ext pg (boff >>> e.type) e.type
          return ((h.setExtent j ext).withUsed (sizeSub h.usedSize bsize), 0)
    else return (h, -einval)

/-- `add_extent`, on an area with any content; none is `-EINVAL`. -/
def addExtent (raw : HeapExtent) (mem : ℤ) (size : ℕ) : Except Fault (Option (HeapExtent × ℕ)) := do
  -- sizeof(struct evl_heap_extent) is 160 and EVL_HEAP_PGMAP_BYTES is 12
  let overhead := alignTo (sizeAdd (size * 12) (160 * 512) / (512 + 12)) 16
  let userSize := sizeSub size overhead
  if userSize % 512 ≠ 0 then return none
  else if userSize < 512 ∨ 4294967295 - 512 + 1 < userSize then return none
  else
    let ext : HeapExtent :=
      { mem := mem, membase := mem + overhead, memlim := mem + size,
        nrpages := (userSize / 512 : ℕ), pagemap := fun _ => ⟨0, 0, 0, 0⟩,
        addrTree := avlInit raw.addrTree, sizeTree := avlInit raw.sizeTree, size := raw.size }
    let ext ← releasePageRange c ext ext.membase userSize
    return some (ext, userSize)

/-- `evl_init_heap_unlocked`; none is `-EINVAL`. -/
def evlInitHeapUnlocked (raw : HeapExtent) (mem : ℤ) (size : ℕ) :
    Except Fault (Option EvlHeap) := do
  match ← addExtent c raw mem size with
  | none => return none
  | some (ext, ret) => return some ⟨[ext], size, ret, 0, fun _ => -1, []⟩

/-- `evl_extend_heap_unlocked`; none is `-EINVAL`. -/
def evlExtendHeapUnlocked (h : EvlHeap) (raw : HeapExtent) (mem : ℤ) (size : ℕ) :
    Except Fault (Option EvlHeap) := do
  match ← addExtent c raw mem size with
  | none => return none
  | some (ext, ret) =>
    return some { h with extents := h.extents ++ [ext], rawSize := sizeAdd h.rawSize size,
                         usableSize := sizeAdd h.usableSize ret }

end Libevl.Heap
