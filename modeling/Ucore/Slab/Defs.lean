import Ucore.Vmm.Defs
import Ucore.Lib.Chain

/-!
# The slab allocator

`kern/mm/slab.c`.  There are 13 caches, for objects of 32 bytes up to 128 kilobytes.  The objects of
a cache are in slabs, which are runs of pages, and the free objects of a slab are threaded through
an array, the `bufctl`, that follows the `slab_t`.  The `slab_t` and the array are at the beginning
of the slab, or, for objects of 512 bytes and more, in an object of another cache, so that both
`kmem_cache_alloc` and `kmem_cache_free` may call themselves.

Addresses are counted from `KERNBASE`, so that `page2kva` is a multiplication.  A `slab_t` is known
by its address.  `alloc_pages` may fail at any call, and otherwise hands out any pages that are not
in use.

The two recursive functions take fuel, the first one also for its loop, as it tries again after it
has made a slab.  `alloc_spec` and `free_spec` say that what there is of it is enough, and
`kmalloc_atomic` how much is needed at most.
-/

set_option autoImplicit false

namespace Ucore

namespace Slab

/-! ## Caches -/

/-- `BUFCTL_END`. -/
def bufctlEnd : ℕ := 0xFFFFFFFF

/-- `SLAB_LIMIT`. -/
def slabLimit : ℕ := 0xFFFFFFFE

/-- `sizeof(slab_t)`. -/
def sizeofSlab : ℕ := 24

/-- `sizeof(kmem_bufctl_t)`. -/
def sizeofBufctl : ℕ := 4

/-- `MIN_SIZE_ORDER`. -/
def minSizeOrder : ℕ := 5

/-- `MAX_SIZE_ORDER`. -/
def maxSizeOrder : ℕ := 17

/-- `SLAB_CACHE_NUM`. -/
def slabCacheNum : ℕ := maxSizeOrder - minSizeOrder + 1

/-- `KMALLOC_MAX_ORDER`. -/
def kmallocMaxOrder : ℕ := 10

/-- `kmem_cache_t`, without its lists. -/
structure KmemCache where
  objsize : ℕ
  num : ℕ
  offset : ℕ
  offSlab : Bool
  pageOrder : ℕ
  slabCachep : ℕ
  deriving DecidableEq, Repr

/-- `slab_mgmt_size`. -/
def slabMgmtSize (num align : ℕ) : ℕ := roundUp (sizeofSlab + num * sizeofBufctl) align

/-- `cache_estimate`: the remainder and the number of objects. -/
def cacheEstimate (order objsize align : ℕ) (offSlab : Bool) : Res (ℕ × ℕ) := do
  let slabSize := pgSize <<< order
  if offSlab then
    let nrObjs := min (slabSize / objsize) slabLimit
    return (slabSize - nrObjs * objsize, nrObjs)
  else
    let nrObjs := (slabSize - sizeofSlab) / (objsize + sizeofBufctl)
    let nrObjs ← whileLoop (fun n => slabMgmtSize n align + n * objsize > slabSize)
      (fun n => .ok (n - 1)) nrObjs nrObjs
    let nrObjs := min nrObjs slabLimit
    return (slabSize - nrObjs * objsize - slabMgmtSize nrObjs align, nrObjs)

/-- `calculate_slab_order`, with the orders that are still to be tried: the number of objects, the
order and what is left over. -/
def calculateSlabOrder (objsize align : ℕ) (offSlab : Bool) : List ℕ → Res (ℕ × ℕ × ℕ)
  | [] => .error .assertion
  | order :: rest => do
    let (remainder, num) ← cacheEstimate order objsize align offSlab
    if num ≠ 0 then
      if offSlab ∧ num > (objsize - sizeofSlab) / sizeofBufctl then .error .assertion
      else if remainder * 8 ≤ pgSize <<< order then return (num, order, remainder)
      else calculateSlabOrder objsize align offSlab rest
    else calculateSlabOrder objsize align offSlab rest

/-- `getorder`. -/
def getorder (n : ℕ) : Res ℕ :=
  match (List.range' minSizeOrder slabCacheNum).find? fun order => n ≤ 1 <<< order with
  | some order => .ok order
  | none => .error .assertion

/-- `init_kmem_cache`. -/
def initKmemCache (objsize align : ℕ) : Res KmemCache := do
  let objsize := roundUp objsize align
  let offSlab := decide (objsize ≥ pgSize >>> 3)
  let (num, order, leftOver) ← calculateSlabOrder objsize align offSlab
    (List.range (kmallocMaxOrder + 1))
  assert (num > 0)
  let mgmtSize := slabMgmtSize num align
  if offSlab && !decide (leftOver ≥ mgmtSize) then
    let mgmtOrder ← getorder mgmtSize
    return ⟨objsize, num, 0, true, order, mgmtOrder - minSizeOrder⟩
  else return ⟨objsize, num, mgmtSize, false, order, 0⟩

/-- `slab_init`. -/
def slabInit : Res (List KmemCache) :=
  (List.range slabCacheNum).mapM fun i => initKmemCache (1 <<< (i + minSizeOrder)) 16

/-- The caches. -/
def cacheTable : List KmemCache :=
  [⟨32, 113, 480, false, 0, 0⟩, ⟨64, 59, 272, false, 0, 0⟩, ⟨128, 30, 144, false, 0, 0⟩,
    ⟨256, 15, 96, false, 0, 0⟩, ⟨512, 8, 0, true, 0, 1⟩, ⟨1024, 4, 0, true, 0, 1⟩,
    ⟨2048, 2, 0, true, 0, 0⟩, ⟨4096, 1, 0, true, 0, 0⟩, ⟨8192, 1, 0, true, 1, 0⟩,
    ⟨16384, 1, 0, true, 2, 0⟩, ⟨32768, 1, 0, true, 3, 0⟩, ⟨65536, 1, 0, true, 4, 0⟩,
    ⟨131072, 1, 0, true, 5, 0⟩]

/-- **`slab_init` sets up these caches.** -/
theorem slabInit_eq : slabInit = .ok cacheTable := by decide +kernel

/-- `slab_cache + c`. -/
def slabCache (c : ℕ) : KmemCache := cacheTable.getD c ⟨0, 0, 0, false, 0, 0⟩

/-! ## State -/

/-- `slab_t`, and the array that follows it. -/
structure SlabT where
  sMem : ℕ
  inuse : ℕ
  offset : ℕ
  free : ℕ
  bufctl : ℕ → ℕ

/-- The pages in use, what is stored in each `struct Page`, the `slab_t`s by their addresses, and
the lists of each cache.  `SET_PAGE_CACHE` and `SET_PAGE_SLAB` store a cache and a slab. -/
structure Kmem where
  pages : Pages
  pageSlab : ℕ → Bool
  pageCache : ℕ → ℕ
  pageSlabp : ℕ → ℕ
  slab : ℕ → Option SlabT
  slabsFull : ℕ → List ℕ
  slabsNotfull : ℕ → List ℕ

namespace Kmem

/-- `*slabp`. -/
def getSlab (s : Kmem) (slabp : ℕ) : Res SlabT := (s.slab slabp).elim (.error .memory) .ok

/-- An assignment to fields of `*slabp`, or the end of it. -/
def setSlab (s : Kmem) (slabp : ℕ) (v : Option SlabT) : Kmem :=
  { s with slab := Function.update s.slab slabp v }

/-- `list_del(&(slabp->slab_link))`. -/
def listDel (s : Kmem) (slabp : ℕ) : Kmem :=
  { s with
    slabsFull := fun c => (s.slabsFull c).erase slabp
    slabsNotfull := fun c => (s.slabsNotfull c).erase slabp }

/-- `list_add(&(cachep->slabs_full), &(slabp->slab_link))`. -/
def addFull (s : Kmem) (c slabp : ℕ) : Kmem :=
  { s with slabsFull := Function.update s.slabsFull c (slabp :: s.slabsFull c) }

/-- `list_add(&(cachep->slabs_notfull), &(slabp->slab_link))`. -/
def addNotfull (s : Kmem) (c slabp : ℕ) : Kmem :=
  { s with slabsNotfull := Function.update s.slabsNotfull c (slabp :: s.slabsNotfull c) }

/-- The loop of `kmem_cache_grow` over the pages of a new slab. -/
def setPages (s : Kmem) (page n c slabp : ℕ) : Kmem :=
  { s with
    pageSlab := fun q => if q ∈ Pages.range page n then true else s.pageSlab q
    pageCache := fun q => if q ∈ Pages.range page n then c else s.pageCache q
    pageSlabp := fun q => if q ∈ Pages.range page n then slabp else s.pageSlabp q }

/-- `ClearPageSlab` on the pages of a slab. -/
def clearPages (s : Kmem) (page n : ℕ) : Kmem :=
  { s with pageSlab := fun q => if q ∈ Pages.range page n then false else s.pageSlab q }

end Kmem

open Kmem

/-! ## Allocation -/

/-- `kmem_cache_slabmgmt`.  The rest of the `slab_t` is set by `kmem_cache_grow`. -/
def kmemCacheSlabmgmt (alloc : ℕ → Kmem → Res (Option ℕ × Kmem)) (c page : ℕ) (s : Kmem) :
    Res (Option ℕ × Kmem) := do
  let objp := page * pgSize
  let (slabp, s) ←
    if (slabCache c).offSlab then alloc (slabCache c).slabCachep s else .ok (some objp, s)
  match slabp with
  | none => return (none, s)
  | some slabp =>
    return (some slabp, s.setSlab slabp
      (some ⟨objp + (slabCache c).offset, 0, (slabCache c).offset, 0, fun _ => 0⟩))

/-- `kmem_cache_grow` once there is a `slab_t`. -/
def initSlab (c page slabp : ℕ) (s : Kmem) : Res Kmem := do
  let s := s.setPages page (1 <<< (slabCache c).pageOrder) c slabp
  let slab ← s.getSlab slabp
  let bufctl := fun i => if i + 1 = (slabCache c).num then bufctlEnd else i + 1
  let s := s.setSlab slabp (some { slab with bufctl := bufctl, free := 0 })
  return s.addNotfull c slabp

/-- `kmem_cache_grow`, with the `kmem_cache_alloc` that it calls. -/
def kmemCacheGrow (alloc : ℕ → Kmem → Res (Option ℕ × Kmem)) (c : ℕ) (s : Kmem) :
    Res (Bool × Kmem) :=
  match s.pages.alloc (1 <<< (slabCache c).pageOrder) with
  | (none, pages) => .ok (false, { s with pages := pages })
  | (some page, pages) => do
    match ← kmemCacheSlabmgmt alloc c page { s with pages := pages } with
    | (none, s) =>
      let pages ← s.pages.free page (1 <<< (slabCache c).pageOrder)
      return (false, { s with pages := pages })
    | (some slabp, s) =>
      let s ← initSlab c page slabp s
      return (true, s)

/-- `kmem_cache_alloc_one`. -/
def kmemCacheAllocOne (c slabp : ℕ) (s : Kmem) : Res (ℕ × Kmem) := do
  let slab ← s.getSlab slabp
  let objp := slab.sMem + slab.free * (slabCache c).objsize
  let slab := { slab with inuse := slab.inuse + 1, free := slab.bufctl slab.free }
  let s := s.setSlab slabp (some slab)
  if slab.free = bufctlEnd then return (objp, (s.listDel slabp).addFull c slabp)
  else return (objp, s)

/-- `kmem_cache_alloc`. -/
def kmemCacheAlloc : ℕ → ℕ → Kmem → Res (Option ℕ × Kmem)
  | 0, _, _ => .error .fuel
  | fuel + 1, c, s =>
    match s.slabsNotfull c with
    | slabp :: _ => do
      let (objp, s) ← kmemCacheAllocOne c slabp s
      return (some objp, s)
    | [] => do
      let (grown, s) ← kmemCacheGrow (kmemCacheAlloc fuel) c s
      if grown then kmemCacheAlloc fuel c s else return (none, s)

/-- `kmalloc`.  There is at most one cache below the first, and each of them is asked twice at
most. -/
def kmalloc (size : ℕ) (s : Kmem) : Res (Option ℕ × Kmem) := do
  assert (size > 0)
  let order ← getorder size
  if order > maxSizeOrder then return (none, s)
  else kmemCacheAlloc 3 (order - minSizeOrder) s

/-! ## Release -/

/-- `kmem_slab_destroy`, with the `kmem_cache_free` that it calls. -/
def kmemSlabDestroy (free : ℕ → ℕ → Kmem → Res Kmem) (c slabp : ℕ) (s : Kmem) : Res Kmem := do
  let slab ← s.getSlab slabp
  let page := (slab.sMem - slab.offset) / pgSize
  let n := 1 <<< (slabCache c).pageOrder
  assert (∀ q ∈ Pages.range page n, s.pageSlab q = true)
  let s := (s.clearPages page n).setSlab slabp none
  let pages ← s.pages.free page n
  let s := { s with pages := pages }
  if (slabCache c).offSlab then free (slabCache c).slabCachep slabp s else return s

/-- `kmem_cache_free_one`. -/
def kmemCacheFreeOne (free : ℕ → ℕ → Kmem → Res Kmem) (c slabp objp : ℕ) (s : Kmem) : Res Kmem := do
  let slab ← s.getSlab slabp
  let objnr := (objp - slab.sMem) / (slabCache c).objsize
  let slab := { slab with
    bufctl := Function.update slab.bufctl objnr slab.free
    free := objnr
    inuse := slab.inuse - 1 }
  let s := s.setSlab slabp (some slab)
  if slab.inuse = 0 then kmemSlabDestroy free c slabp (s.listDel slabp)
  else if slab.inuse = (slabCache c).num - 1 then return (s.listDel slabp).addNotfull c slabp
  else return s

/-- `kmem_cache_free`. -/
def kmemCacheFree : ℕ → ℕ → ℕ → Kmem → Res Kmem
  | 0, _, _, _ => .error .fuel
  | fuel + 1, c, objp, s =>
    let page := objp / pgSize
    if !s.pageSlab page then .error .assertion
    else kmemCacheFreeOne (kmemCacheFree fuel) c (s.pageSlabp page) objp s

/-- `kfree`. -/
def kfree (objp : ℕ) (s : Kmem) : Res Kmem := kmemCacheFree 2 (s.pageCache (objp / pgSize)) objp s

/-- `slab_allocated`. -/
def slabAllocated (s : Kmem) : ℕ :=
  ((List.range slabCacheNum).map fun c =>
    ((s.slabsFull c).map fun _ => (slabCache c).num * (slabCache c).objsize).sum +
    ((s.slabsNotfull c).map fun slabp =>
      ((s.slab slabp).elim 0 SlabT.inuse) * (slabCache c).objsize).sum).sum

end Slab

end Ucore
