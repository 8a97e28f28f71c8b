import Ucore.RbTree.Defs
import Ucore.Lib.Dyadic
import Ucore.Lib.Ring

/-!
# The address spaces of `kern/mm/vmm.c`

An address space is an `Mm`: the list of its areas, the red-black tree over them once there is one,
and the cache.  An area is known by the address of its `vma_struct`, and the fields and links of the
area structures of an address space are part of its `Mm`; `vm_mm` is left out for this reason.  The
objects that `kmalloc` returns come from a pool, so that any request may fail.

`vmm.c` calls into `pmm.c` and `shmem.c`.  None of its decisions about areas depends on what these
calls do, so they are collected in a `Backend`, and the functions here take one as an argument: they
thread its state through, in the order of the source.

An address has 32 bits.  It is a natural number here, and the sums that may wrap around are
`addrAdd`; differences are those of addresses that the code knows to be in order.  The links of the
tree are a heap of their own (`Mm.rbLink`), on which the functions of `Ucore.RbTree.Defs` work with
the areas compared by `vmaCompare`.
-/

set_option autoImplicit false

namespace Ucore

/-! ## Addresses -/

/-- `PGSIZE`. -/
def pgSize : ℕ := 4096

/-- `PTSIZE`. -/
def ptSize : ℕ := 4194304

/-- `USERBASE`. -/
def userBase : ℕ := 0x00200000

/-- `USERTOP`. -/
def userTop : ℕ := 0xB0000000

/-- Addition of addresses, which have 32 bits. -/
def addrAdd (a b : ℕ) : ℕ := (a + b) % 2 ^ 32

/-- `ROUNDDOWN(a, n)`. -/
def roundDown (a n : ℕ) : ℕ := a - a % n

/-- `ROUNDUP(a, n)`. -/
def roundUp (a n : ℕ) : ℕ := roundDown (addrAdd a (n - 1)) n

/-- `USER_ACCESS(start, end)`. -/
def userAccess (start stop : ℕ) : Bool :=
  decide (userBase ≤ start) && decide (start < stop) && decide (stop ≤ userTop)

/-- `KERNBASE`. -/
def kernBase : ℕ := 0xC0000000

/-- `KMEMSIZE`. -/
def kmemSize : ℕ := 0x38000000

/-- `KERN_ACCESS(start, end)`. -/
def kernAccess (start stop : ℕ) : Bool :=
  decide (kernBase ≤ start) && decide (start < stop) && decide (stop ≤ kernBase + kmemSize)

/-! ## Areas and address spaces -/

/-- The bits of `vm_flags`. -/
structure VmFlags where
  read : Bool := false
  write : Bool := false
  exec : Bool := false
  stack : Bool := false
  share : Bool := false
  deriving DecidableEq, Repr

/-- The fields of `struct vma_struct` that are not links. -/
structure Vma where
  vmStart : ℕ
  vmEnd : ℕ
  vmFlags : VmFlags
  shmem : Option ℕ
  shmemOff : ℕ
  deriving DecidableEq, Repr

/-- `struct mm_struct`, with the area structures that belong to it and the objects `kmalloc` has
handed out for it. -/
structure Mm where
  mmapList : List ℕ
  mmapTree : Option (RbTree ℕ)
  mmapCache : Option ℕ
  pgdir : ℕ
  mapCount : ℤ
  vma : ℕ → Vma
  rbLink : RbHeap ℕ
  kmem : Pool ℕ

/-- `RB_MIN_MAP_COUNT`. -/
def rbMinMapCount : ℤ := 32

/-- `E_INVAL`. -/
def eInval : ℤ := 3

/-- `E_NO_MEM`. -/
def eNoMem : ℤ := 4

/-- What `vmm.c` uses of `pmm.c` and `shmem.c`, on a state of type `ε`.  A page directory and a
shared memory object are known by their addresses. -/
structure Backend (ε : Type) where
  /-- `unmap_range(pgdir, start, end)`. -/
  unmapRange : ℕ → ℕ → ℕ → ε → Res ε
  /-- `exit_range(pgdir, start, end)`. -/
  exitRange : ℕ → ℕ → ℕ → ε → Res ε
  /-- `copy_range(to, from, start, end, share)`. -/
  copyRange : ℕ → ℕ → ℕ → ℕ → Bool → ε → Res (ℤ × ε)
  /-- `shmem->len`. -/
  shmemLen : ℕ → ε → Res ℕ
  /-- `shmem_ref_inc(shmem)`. -/
  shmemRefInc : Option ℕ → ε → Res ε
  /-- `shmem_ref_dec(shmem)`. -/
  shmemRefDec : Option ℕ → ε → Res (ℤ × ε)
  /-- `shmem_destroy(shmem)`. -/
  shmemDestroy : Option ℕ → ε → Res ε

/-- The loops over a tree pass at most every area, and one that is about to be inserted. -/
def Mm.fuel (mm : Mm) : ℕ := mm.mmapList.length + 1

/-- An assignment to fields of the area `v`. -/
def Mm.setVma (mm : Mm) (v : ℕ) (a : Vma) : Mm := { mm with vma := Function.update mm.vma v a }

/-- An assignment to `mmap_cache`. -/
def Mm.setCache (mm : Mm) (c : Option ℕ) : Mm := { mm with mmapCache := c }

/-- `mm_create`, apart from the request for the structure itself. -/
def mmCreate (pgdir : ℕ) (kmem : Pool ℕ) : Mm :=
  ⟨[], none, none, pgdir, 0, fun _ => ⟨0, 0, {}, none, 0⟩, fun _ => ⟨false, 0, 0, 0⟩, kmem⟩

/-- `vma_create`. -/
def vmaCreate (mm : Mm) (vmStart vmEnd : ℕ) (vmFlags : VmFlags) : Option ℕ × Mm :=
  match mm.kmem.take with
  | (none, kmem) => (none, { mm with kmem := kmem })
  | (some v, kmem) => (some v, { mm with kmem := kmem }.setVma v ⟨vmStart, vmEnd, vmFlags, none, 0⟩)

/-! ## Searching -/

/-- `find_vma_rb`.  Leaving the loop is running out of nodes to look at. -/
def findVmaRb (fuel : ℕ) (tree : RbTree ℕ) (vma : ℕ → Vma) (h : RbHeap ℕ) (addr : ℕ) :
    Res (Option ℕ × Option ℕ) :=
  whileLoop (fun s => s.1.isSome)
    (fun s =>
      match s.1 with
      | none => .ok s
      | some node =>
        if (vma node).vmEnd > addr then
          if (vma node).vmStart ≤ addr then .ok (none, some node)
          else .ok (rbNodeChild tree .left h node, some node)
        else .ok (rbNodeChild tree .right h node, s.2))
    fuel (rbNodeRoot tree h, none)

/-- `find_vma` up to the assignment to the cache: the area in the cache, if it covers the address,
or else a search. -/
def lookupVma (mm : Mm) (addr : ℕ) : Res (Option ℕ) :=
  match mm.mmapCache.filter fun v => (mm.vma v).vmStart ≤ addr && (mm.vma v).vmEnd > addr with
  | some v => .ok (some v)
  | none =>
    match mm.mmapTree with
    | some tree => do
      let (_, found) ← findVmaRb mm.fuel tree mm.vma mm.rbLink addr
      return found
    | none => .ok (mm.mmapList.find? fun v => addr < (mm.vma v).vmEnd)

/-- `find_vma` on an address space that is not null. -/
def findVma (mm : Mm) (addr : ℕ) : Res (Option ℕ × Mm) := do
  let found ← lookupVma mm addr
  return (found, if found.isSome then mm.setCache found else mm)

/-- The loop of `get_unmapped_area`, over the areas from the last one on. -/
def slideDown (len : ℕ) (vma : ℕ → Vma) : List ℕ → ℕ → ℕ
  | [], start => if userBase ≤ start then start else 0
  | v :: rest, start =>
    if (vma v).vmEnd ≤ start then start
    else if (vma v).vmStart < addrAdd start len then
      if (vma v).vmStart ≤ len then 0 else slideDown len vma rest ((vma v).vmStart - len)
    else slideDown len vma rest start

/-- `get_unmapped_area`. -/
def getUnmappedArea (mm : Mm) (len : ℕ) : ℕ :=
  if len = 0 ∨ userTop < len then 0
  else slideDown len mm.vma mm.mmapList.reverse (userTop - len)

/-- The bit of `vm_flags` that `user_mem_check` asks for. -/
def VmFlags.grants (flags : VmFlags) (write : Bool) : Bool :=
  if write then flags.write else flags.read

/-- A round of the loop of `user_mem_check`, on `start` and the address space.  The first component
is false once the function is to return 0. -/
def checkRound (write : Bool) (s : Bool × ℕ × Mm) : Res (Bool × ℕ × Mm) := do
  let (found, mm) ← findVma s.2.2 s.2.1
  match found with
  | none => return (false, s.2.1, mm)
  | some v =>
    let a := mm.vma v
    if s.2.1 < a.vmStart then return (false, s.2.1, mm)
    else if !a.vmFlags.grants write then return (false, s.2.1, mm)
    else if write && a.vmFlags.stack && decide (s.2.1 < addrAdd a.vmStart pgSize) then
      return (false, s.2.1, mm)
    else return (true, a.vmEnd, mm)

/-- `user_mem_check`.  Every round but the last one passes an area. -/
def userMemCheck (mm : Option Mm) (addr len : ℕ) (write : Bool) : Res (Bool × Option Mm) :=
  match mm with
  | none => .ok (kernAccess addr (addrAdd addr len), none)
  | some mm =>
    if !userAccess addr (addrAdd addr len) then .ok (false, some mm)
    else do
      let (found, _, mm) ← whileLoop (fun s => s.1 && decide (s.2.1 < addrAdd addr len))
        (checkRound write) (mm.mmapList.length + 1) (true, addr, mm)
      return (found, some mm)

/-! ## Insertion and removal of areas -/

/-- `vma_compare`. -/
def vmaCompare (vma : ℕ → Vma) (v w : ℕ) : ℤ :=
  if (vma v).vmStart < (vma w).vmStart then -1
  else if (vma v).vmStart > (vma w).vmStart then 1 else 0

/-- `check_vma_overlap`. -/
def checkVmaOverlap (prev next : Vma) : Res Unit := do
  assert (prev.vmStart < prev.vmEnd)
  assert (prev.vmEnd ≤ next.vmStart)
  assert (next.vmStart < next.vmEnd)

/-- `insert_vma_struct` from `rb_tree_create` on. -/
def buildTree (mm : Mm) : Res Mm :=
  match rbTreeCreate mm.kmem mm.rbLink with
  | (none, kmem, rbLink) => .ok { mm with kmem := kmem, rbLink := rbLink }
  | (some tree, kmem, rbLink) => do
    let rbLink ← mm.mmapList.foldlM
      (fun h v => rbInsert mm.fuel tree (vmaCompare mm.vma) h v) rbLink
    return { mm with mmapTree := some tree, kmem := kmem, rbLink := rbLink }

/-- The place where `insert_vma_struct` puts the area `v`, and the links of the tree with it. -/
def findPrev (mm : Mm) (v : ℕ) : Res (RbHeap ℕ × Option ℕ) :=
  match mm.mmapTree with
  | some tree => do
    let rbLink ← rbInsert mm.fuel tree (vmaCompare mm.vma) mm.rbLink v
    let prev ← rbNodePrev mm.fuel tree rbLink v
    return (rbLink, prev)
  | none =>
    .ok (mm.rbLink, (mm.mmapList.takeWhile fun p =>
      (mm.vma p).vmStart ≤ (mm.vma v).vmStart).getLast?)

/-- `insert_vma_struct`. -/
def insertVmaStruct (mm : Mm) (v : ℕ) : Res Mm := do
  assert ((mm.vma v).vmStart < (mm.vma v).vmEnd)
  let (rbLink, lePrev) ← findPrev mm v
  let leNext := listNext mm.mmapList lePrev
  lePrev.elim (.ok ()) fun p => checkVmaOverlap (mm.vma p) (mm.vma v)
  leNext.elim (.ok ()) fun n => checkVmaOverlap (mm.vma v) (mm.vma n)
  let mm := { mm with
    rbLink := rbLink
    mmapList := listAddAfter mm.mmapList lePrev v
    mapCount := mm.mapCount + 1 }
  if mm.mmapTree = none ∧ rbMinMapCount ≤ mm.mapCount then buildTree mm else return mm

/-- `remove_vma_struct`. -/
def removeVmaStruct (mm : Mm) (v : ℕ) : Res Mm := do
  let rbLink ← mm.mmapTree.elim (.ok mm.rbLink) fun tree => rbDelete mm.fuel tree mm.rbLink v
  return { mm with
    rbLink := rbLink
    mmapList := mm.mmapList.erase v
    mmapCache := if mm.mmapCache = some v then none else mm.mmapCache
    mapCount := mm.mapCount - 1 }

/-- The assignments of `vma_resize`. -/
def Vma.resize (a : Vma) (start stop : ℕ) : Vma :=
  let off := if a.vmFlags.share then addrAdd a.shmemOff (start - a.vmStart) else a.shmemOff
  { a with shmemOff := off, vmStart := start, vmEnd := stop }

/-- `vma_resize`. -/
def vmaResize (mm : Mm) (v start stop : ℕ) : Res Mm := do
  assert (start % pgSize = 0 ∧ stop % pgSize = 0)
  assert ((mm.vma v).vmStart ≤ start ∧ start < stop ∧ stop ≤ (mm.vma v).vmEnd)
  return mm.setVma v ((mm.vma v).resize start stop)

/-! ## The operations on address spaces -/

section Operations

variable {ε : Type} (B : Backend ε)

/-- What `vma_destroy` does to the shared memory object of an area. -/
def vmaRelease (a : Vma) (e : ε) : Res ε :=
  if a.vmFlags.share then do
    let (ref, e) ← B.shmemRefDec a.shmem e
    if ref = 0 then B.shmemDestroy a.shmem e else return e
  else .ok e

/-- `vma_destroy`. -/
def vmaDestroy (mm : Mm) (v : ℕ) (e : ε) : Res (Mm × ε) := do
  let e ← vmaRelease B (mm.vma v) e
  return ({ mm with kmem := mm.kmem.give v }, e)

/-- `mm_map`: the return value and the area that has been stored. -/
def mmMap (mm : Mm) (addr len : ℕ) (vmFlags : VmFlags) : Res (ℤ × Option ℕ × Mm) := do
  let start := roundDown addr pgSize
  let stop := roundUp (addrAdd addr len) pgSize
  if !userAccess start stop then return (-eInval, none, mm)
  let (found, mm) ← findVma mm start
  if found.any fun v => stop > (mm.vma v).vmStart then return (-eInval, none, mm)
  match vmaCreate mm start stop { vmFlags with share := false } with
  | (none, mm) => return (-eNoMem, none, mm)
  | (some v, mm) => do
    let mm ← insertVmaStruct mm v
    return (0, some v, mm)

/-- `mm_map_shmem`. -/
def mmMapShmem (mm : Mm) (addr : ℕ) (vmFlags : VmFlags) (shmem : Option ℕ) (e : ε) :
    Res (ℤ × Mm × ε) := do
  match shmem with
  | none => return (-eInval, mm, e)
  | some o =>
    if addr % pgSize ≠ 0 then return (-eInval, mm, e)
    let e ← B.shmemRefInc (some o) e
    let len ← B.shmemLen o e
    let (ret, stored, mm) ← mmMap mm addr len vmFlags
    -- an area has been stored if and only if the return value is 0
    match stored with
    | none => do
      let (_, e) ← B.shmemRefDec (some o) e
      return (ret, mm, e)
    | some v =>
      let a := mm.vma v
      let flags := { a.vmFlags with share := true }
      return (0, mm.setVma v { a with shmem := some o, shmemOff := 0, vmFlags := flags }, e)

/-- The first `while` loop of `mm_unmap`: the areas below `stop` are moved to a list of their own,
which they enter at the front.  The second component is the area to look at next, if there is
one. -/
def collectAreas (stop : ℕ) (mm : Mm) (v : ℕ) : Res (Mm × Option ℕ × List ℕ) :=
  whileLoop (fun s => s.2.1.any fun v => (s.1.vma v).vmStart < stop)
    (fun s =>
      match s.2.1 with
      | none => .ok s
      | some v => do
        let next := listNext s.1.mmapList (some v)
        let mm ← removeVmaStruct s.1 v
        return (mm, next, v :: s.2.2))
    (mm.mmapList.length) (mm, some v, [])

/-- The second `while` loop of `mm_unmap`, on one area. -/
def unmapArea (start stop : ℕ) (s : Mm × ε) (v : ℕ) : Res (Mm × ε) := do
  let (mm, e) := s
  let a := mm.vma v
  if a.vmStart < start then
    let mm ← vmaResize mm v a.vmStart start
    let mm ← insertVmaStruct mm v
    let e ← B.unmapRange mm.pgdir start a.vmEnd e
    return (mm, e)
  else if stop < a.vmEnd then
    let mm ← vmaResize mm v stop a.vmEnd
    let mm ← insertVmaStruct mm v
    let e ← B.unmapRange mm.pgdir a.vmStart stop e
    return (mm, e)
  else
    let (mm, e) ← vmaDestroy B mm v e
    let e ← B.unmapRange mm.pgdir a.vmStart a.vmEnd e
    return (mm, e)

/-- `mm_unmap`. -/
def mmUnmap (mm : Mm) (addr len : ℕ) (e : ε) : Res (ℤ × Mm × ε) := do
  let start := roundDown addr pgSize
  let stop := roundUp (addrAdd addr len) pgSize
  if !userAccess start stop then return (-eInval, mm, e)
  let (found, mm) ← findVma mm start
  match found with
  | none => return (0, mm, e)
  | some v =>
    let a := mm.vma v
    if stop ≤ a.vmStart then return (0, mm, e)
    if a.vmStart < start ∧ stop < a.vmEnd then
      match vmaCreate mm a.vmStart start a.vmFlags with
      | (none, mm) => return (-eNoMem, mm, e)
      | (some nvma, mm) =>
        let mm ← vmaResize mm v stop a.vmEnd
        let mm ← insertVmaStruct mm nvma
        let e ← B.unmapRange mm.pgdir start stop e
        return (0, mm, e)
    else
      let (mm, _, freeList) ← collectAreas stop mm v
      let (mm, e) ← freeList.foldlM (unmapArea B start stop) (mm, e)
      return (0, mm, e)

/-- The `else` branch of `dup_mmap`: the copy `nvma` of a shared area shares its object. -/
def shareArea (a : Vma) (dst : Mm) (nvma : ℕ) (e : ε) : Res (Mm × ε) :=
  if a.vmFlags.share then do
    let e ← B.shmemRefInc a.shmem e
    return (dst.setVma nvma { dst.vma nvma with shmem := a.shmem, shmemOff := a.shmemOff }, e)
  else return (dst, e)

/-- The loop of `dup_mmap`, over the areas of `src` from the last one on. -/
def dupAreas (src : Mm) : List ℕ → Mm → ε → Res (ℤ × Mm × ε)
  | [], dst, e => return (0, dst, e)
  | v :: rest, dst, e => do
    let a := src.vma v
    match vmaCreate dst a.vmStart a.vmEnd a.vmFlags with
    | (none, dst) => return (-eNoMem, dst, e)
    | (some nvma, dst) =>
      let (dst, e) ← shareArea B a dst nvma e
      let dst ← insertVmaStruct dst nvma
      let (ret, e) ← B.copyRange dst.pgdir src.pgdir a.vmStart a.vmEnd a.vmFlags.share e
      if ret ≠ 0 then return (-eNoMem, dst, e)
      dupAreas src rest dst e

/-- `dup_mmap(dst, src)`. -/
def dupMmap (dst src : Mm) (e : ε) : Res (ℤ × Mm × ε) := dupAreas B src src.mmapList.reverse dst e

/-- `exit_mmap`. -/
def exitMmap (mm : Mm) (e : ε) : Res ε := do
  let e ← mm.mmapList.foldlM
    (fun e v => B.unmapRange mm.pgdir (mm.vma v).vmStart (mm.vma v).vmEnd e) e
  mm.mmapList.foldlM (fun e v => B.exitRange mm.pgdir (mm.vma v).vmStart (mm.vma v).vmEnd e) e

/-- `mm_destroy`, up to the release of the structure itself. -/
def mmDestroy (mm : Mm) (e : ε) : Res (Mm × ε) :=
  let kmem := mm.mmapTree.elim mm.kmem (rbTreeDestroy mm.kmem)
  mm.mmapList.foldlM (fun s v => vmaDestroy B { s.1 with mmapList := s.1.mmapList.erase v } v s.2)
    ({ mm with kmem := kmem }, e)

end Operations

end Ucore
