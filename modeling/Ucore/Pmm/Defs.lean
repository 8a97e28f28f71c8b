import Ucore.Vmm.Defs

/-!
# Page tables and shared memory objects

The functions of `arch/x86/pmm.c` that map and unmap user pages, and `kern/mm/shmem.c`.  They work
on one state, the `Vm`: the frames that `alloc_page` has handed out, their reference counts and
contents, the page directories, the page tables, and the shared memory objects.

A frame holds either user data (`Vm.mem`) or a table of entries (`Vm.table`), which is a page table
or the `entry` page of a node of a shared memory object.  A pointer to an entry is a pair of a frame
and an index.  Only the user part of a page directory is here, and a present entry of it stands for
the frame of a page table, since `get_pte` always sets it with the same permissions.  Nothing in the
kernel ever sets `PG_swap`, so the branches for swapped pages are not here either.

At the end stands `vmBackend`, which is what the functions of `kern/mm/vmm.c` call: they take it in
the place of the `Backend` of `Ucore.Vmm.Defs`.
-/

set_option autoImplicit false

namespace Ucore

/-- The permission bits `PTE_W` and `PTE_U`. -/
structure Perm where
  writable : Bool
  user : Bool
  deriving DecidableEq, Repr

/-- A page table entry. -/
structure Pte where
  frame : ℕ
  present : Bool
  perm : Perm
  deriving DecidableEq, Repr

/-- The entry 0. -/
def Pte.zero : Pte := ⟨0, false, ⟨false, false⟩⟩

/-- `shmn_t`. -/
structure Shmn where
  addr : ℕ
  start : ℕ
  stop : ℕ
  entry : ℕ
  deriving DecidableEq, Repr

/-- `struct shmem_struct`.  A node never changes once it has been created, so the cache holds the
node and not its address. -/
structure Shmem where
  shmnList : List Shmn
  shmnCache : Option Shmn
  len : ℕ
  ref : ℤ
  deriving DecidableEq, Repr

/-- Physical memory and everything that `pmm.c` and `shmem.c` keep in it.  The objects of `kmalloc`
come from a pool for each of the two structures of `shmem.c`. -/
structure Vm where
  frames : Pool ℕ
  ref : ℕ → ℤ
  table : ℕ → ℕ → Pte
  mem : ℕ → ℕ → UInt8
  pgdir : ℕ → ℕ → Option ℕ
  shmem : ℕ → Option Shmem
  shmemPool : Pool ℕ
  shmnPool : Pool ℕ

/-- `PDX(la)`; the mask of the macro does nothing to an address of 32 bits. -/
def pdx (la : ℕ) : ℕ := la / ptSize

/-- `PTX(la)`. -/
def ptx (la : ℕ) : ℕ := la / pgSize % 1024

/-- `SHMN_NENTRY`. -/
def shmnNentry : ℕ := 1024

/-! ## Frames and entries -/

namespace Vm

/-- `*ptep`. -/
def pte (s : Vm) (p : ℕ × ℕ) : Pte := s.table p.1 p.2

/-- An assignment to `*ptep`. -/
def setPte (s : Vm) (p : ℕ × ℕ) (v : Pte) : Vm :=
  { s with table := Function.update s.table p.1 (Function.update (s.table p.1) p.2 v) }

/-- `set_page_ref`. -/
def setPageRef (s : Vm) (page : ℕ) (n : ℤ) : Vm := { s with ref := Function.update s.ref page n }

/-- `memset(table, 0, PGSIZE)` for a frame that is to hold entries. -/
def zeroTable (s : Vm) (page : ℕ) : Vm :=
  { s with table := Function.update s.table page fun _ => Pte.zero }

/-- An assignment to an entry of a page directory. -/
def setPde (s : Vm) (pgdir k : ℕ) (v : Option ℕ) : Vm :=
  { s with pgdir := Function.update s.pgdir pgdir (Function.update (s.pgdir pgdir) k v) }

/-- An assignment to fields of a shared memory object, or its release. -/
def setShmem (s : Vm) (o : ℕ) (v : Option Shmem) : Vm :=
  { s with shmem := Function.update s.shmem o v }

/-- `page_ref_inc`. -/
def pageRefInc (s : Vm) (page : ℕ) : Vm := s.setPageRef page (s.ref page + 1)

/-- `page_ref_dec`. -/
def pageRefDec (s : Vm) (page : ℕ) : Vm := s.setPageRef page (s.ref page - 1)

/-- `alloc_page`. -/
def allocPage (s : Vm) : Option ℕ × Vm :=
  match s.frames.take with
  | (page, frames) => (page, { s with frames := frames })

/-- `free_page`, which also clears the reference count.  The frame has to be in use. -/
def freePage (s : Vm) (page : ℕ) : Res Vm :=
  if page ∈ s.frames.live then
    .ok { s.setPageRef page 0 with frames := s.frames.give page }
  else .error .memory

end Vm

open Vm

/-! ## `arch/x86/pmm.c` -/

/-- `get_pte`. -/
def getPte (pgdir la : ℕ) (create : Bool) (s : Vm) : Option (ℕ × ℕ) × Vm :=
  match s.pgdir pgdir (pdx la) with
  | some f => (some (f, ptx la), s)
  | none =>
    if !create then (none, s)
    else
      match s.allocPage with
      | (none, s) => (none, s)
      | (some f, s) =>
        (some (f, ptx la), ((s.setPageRef f 1).zeroTable f).setPde pgdir (pdx la) (some f))

/-- `page_ref_dec` on a page, and `free_page` if that was the last reference. -/
def releasePage (page : ℕ) (s : Vm) : Res Vm :=
  let s := s.pageRefDec page
  if s.ref page = 0 then s.freePage page else .ok s

/-- `page_remove_pte`. -/
def pageRemovePte (ptep : ℕ × ℕ) (s : Vm) : Res Vm :=
  if (s.pte ptep).present then do
    let s ← releasePage (s.pte ptep).frame s
    return s.setPte ptep Pte.zero
  else .ok s

/-- `page_remove`. -/
def pageRemove (pgdir la : ℕ) (s : Vm) : Res Vm :=
  match getPte pgdir la false s with
  | (none, s) => .ok s
  | (some ptep, s) => pageRemovePte ptep s

/-- `page_insert` from `page_ref_inc` on. -/
def insertPte (page : ℕ) (perm : Perm) (ptep : ℕ × ℕ) (s : Vm) : Res Vm := do
  let s := s.pageRefInc page
  let s ←
    if (s.pte ptep).present then
      if (s.pte ptep).frame = page then .ok (s.pageRefDec page) else pageRemovePte ptep s
    else .ok s
  return s.setPte ptep ⟨page, true, perm⟩

/-- `page_insert`. -/
def pageInsert (pgdir page la : ℕ) (perm : Perm) (s : Vm) : Res (ℤ × Vm) :=
  match getPte pgdir la true s with
  | (none, s) => .ok (-eNoMem, s)
  | (some ptep, s) => do
    let s ← insertPte page perm ptep s
    return (0, s)

/-- `pgdir_alloc_page`. -/
def pgdirAllocPage (pgdir la : ℕ) (perm : Perm) (s : Vm) : Res (Option ℕ × Vm) :=
  match s.allocPage with
  | (none, s) => .ok (none, s)
  | (some page, s) => do
    let (ret, s) ← pageInsert pgdir page la perm s
    if ret ≠ 0 then
      let s ← s.freePage page
      return (none, s)
    else return (some page, s)

/-- The round of the loop of `unmap_range` at the address `t.1`. -/
def unmapRound (pgdir : ℕ) (t : ℕ × Vm) : Res (ℕ × Vm) :=
  match getPte pgdir t.1 false t.2 with
  | (none, s) => .ok (roundDown (addrAdd t.1 ptSize) ptSize, s)
  | (some ptep, s) => do
    let s ← if s.pte ptep ≠ Pte.zero then pageRemovePte ptep s else .ok s
    return (addrAdd t.1 pgSize, s)

/-- `unmap_range`. -/
def unmapRange (pgdir start stop : ℕ) (s : Vm) : Res Vm := do
  assert (start % pgSize = 0 ∧ stop % pgSize = 0)
  assert (userAccess start stop)
  let (_, s) ← doWhile (fun t => t.1 ≠ 0 && t.1 < stop) (unmapRound pgdir) (stop / pgSize)
    (start, s)
  return s

/-- The round of the loop of `exit_range` at the address `t.1`. -/
def exitRound (pgdir : ℕ) (t : ℕ × Vm) : Res (ℕ × Vm) := do
  let s ← (t.2.pgdir pgdir (pdx t.1)).elim (.ok t.2) fun f => do
    let s ← t.2.freePage f
    return s.setPde pgdir (pdx t.1) none
  return (addrAdd t.1 ptSize, s)

/-- `exit_range`. -/
def exitRange (pgdir start stop : ℕ) (s : Vm) : Res Vm := do
  assert (start % pgSize = 0 ∧ stop % pgSize = 0)
  assert (userAccess start stop)
  let (_, s) ← doWhile (fun t => t.1 ≠ 0 && t.1 < stop) (exitRound pgdir) (stop / ptSize + 1)
    (roundDown start ptSize, s)
  return s

/-- `copy_range` on an entry that is present: the permissions of the copy, after a private page that
is writable has been mapped again without `PTE_W`. -/
def protectPage (src start : ℕ) (share : Bool) (pte : Pte) (s : Vm) : Res (Perm × Vm) :=
  if !share && pte.perm.writable then do
    let perm := { pte.perm with writable := false }
    let (_, s) ← pageInsert src pte.frame start perm s
    return (perm, s)
  else .ok (pte.perm, s)

/-- `copy_range` on an entry that is not 0.  The result says whether there was a page table for the
copy. -/
def copyPage (dst src start : ℕ) (share : Bool) (ptep : ℕ × ℕ) (s : Vm) : Res (Bool × Vm) :=
  match getPte dst start true s with
  | (none, s) => .ok (false, s)
  | (some nptep, s) => do
    assert (s.pte ptep ≠ Pte.zero ∧ s.pte nptep = Pte.zero)
    if (s.pte ptep).present then
      let page := (s.pte ptep).frame
      let (perm, s) ← protectPage src start share (s.pte ptep) s
      let (ret, s) ← pageInsert dst page start perm s
      assert (ret = 0)
      return (true, s)
    else return (true, s)

/-- The round of the loop of `copy_range` at the address `t.1`.  The second component becomes false
where the source returns `-E_NO_MEM`. -/
def copyRound (dst src : ℕ) (share : Bool) (t : ℕ × Bool × Vm) : Res (ℕ × Bool × Vm) :=
  match getPte src t.1 false t.2.2 with
  | (none, s) => .ok (roundDown (addrAdd t.1 ptSize) ptSize, true, s)
  | (some ptep, s) => do
    let (ok, s) ← if s.pte ptep ≠ Pte.zero then copyPage dst src t.1 share ptep s else .ok (true, s)
    return (addrAdd t.1 pgSize, ok, s)

/-- `copy_range`. -/
def copyRange (dst src start stop : ℕ) (share : Bool) (s : Vm) : Res (ℤ × Vm) := do
  assert (start % pgSize = 0 ∧ stop % pgSize = 0)
  assert (userAccess start stop)
  let (_, ok, s) ← doWhile (fun t => t.2.1 && (t.1 ≠ 0 && t.1 < stop)) (copyRound dst src share)
    (stop / pgSize) (start, true, s)
  return (if ok then 0 else -eNoMem, s)

/-! ## `kern/mm/shmem.c` -/

/-- The object that a pointer refers to. -/
def getShmem (o : Option ℕ) (s : Vm) : Res (ℕ × Shmem) :=
  match o with
  | none => .error .memory
  | some o => (s.shmem o).elim (.error .memory) fun sh => .ok (o, sh)

/-- `shmem_create`. -/
def shmemCreate (len : ℕ) (s : Vm) : Option ℕ × Vm :=
  match s.shmemPool.take with
  | (none, pool) => (none, { s with shmemPool := pool })
  | (some o, pool) => (some o, { s with shmemPool := pool }.setShmem o (some ⟨[], none, len, 0⟩))

/-- `shmem_ref_inc`. -/
def shmemRefInc (o : Option ℕ) (s : Vm) : Res Vm := do
  let (o, sh) ← getShmem o s
  return s.setShmem o (some { sh with ref := sh.ref + 1 })

/-- `shmem_ref_dec`. -/
def shmemRefDec (o : Option ℕ) (s : Vm) : Res (ℤ × Vm) := do
  let (o, sh) ← getShmem o s
  return (sh.ref - 1, s.setShmem o (some { sh with ref := sh.ref - 1 }))

/-- `shmem->len`. -/
def shmemLen (o : ℕ) (s : Vm) : Res ℕ := do
  let (_, sh) ← getShmem (some o) s
  return sh.len

/-- `shmn_create`. -/
def shmnCreate (start : ℕ) (s : Vm) : Res (Option Shmn × Vm) := do
  assert (start % pgSize * shmnNentry = 0)
  match s.shmnPool.take with
  | (none, pool) => return (none, { s with shmnPool := pool })
  | (some addr, pool) =>
    match { s with shmnPool := pool }.allocPage with
    | (none, s) => return (none, { s with shmnPool := s.shmnPool.give addr })
    | (some page, s) =>
      return (some ⟨addr, start, addrAdd start (pgSize * shmnNentry), page⟩, s.zeroTable page)

/-- `shmem_remove_entry_pte`; `PageSwap` is never true. -/
def shmemRemoveEntryPte (ptep : ℕ × ℕ) (s : Vm) : Res Vm :=
  if (s.pte ptep).present then do
    let s ← releasePage (s.pte ptep).frame s
    return s.setPte ptep Pte.zero
  else if s.pte ptep ≠ Pte.zero then .ok (s.setPte ptep Pte.zero)
  else .ok s

/-- `shmn_destroy`. -/
def shmnDestroy (shmn : Shmn) (s : Vm) : Res Vm := do
  let s ← (List.range shmnNentry).foldlM (fun s i => shmemRemoveEntryPte (shmn.entry, i) s) s
  let s ← s.freePage shmn.entry
  return { s with shmnPool := s.shmnPool.give shmn.addr }

/-- A node covers an address. -/
def Shmn.covers (shmn : Shmn) (addr : ℕ) : Bool := shmn.start ≤ addr && addr < shmn.stop

/-- `find_shmn`. -/
def findShmn (sh : Shmem) (addr : ℕ) : Option Shmn × Shmem :=
  let found := (sh.shmnCache.filter fun m => m.covers addr).or
    (sh.shmnList.find? fun m => m.covers addr)
  (found, if found.isSome then { sh with shmnCache := found } else sh)

/-- `check_shmn_overlap`. -/
def checkShmnOverlap (prev next : Shmn) : Res Unit := do
  assert (prev.start < prev.stop)
  assert (prev.stop ≤ next.start)
  assert (next.start < next.stop)

/-- `insert_shmn`, on the list of the nodes. -/
def insertShmn (l : List Shmn) (shmn : Shmn) : Res (List Shmn) := do
  let before := l.takeWhile fun m => m.start ≤ shmn.start
  let after := l.dropWhile fun m => m.start ≤ shmn.start
  before.getLast?.elim (.ok ()) fun prev => checkShmnOverlap prev shmn
  after.head?.elim (.ok ()) fun next => checkShmnOverlap shmn next
  return before ++ shmn :: after

/-- `shmem_destroy`. -/
def shmemDestroy (o : Option ℕ) (s : Vm) : Res Vm := do
  let (o, sh) ← getShmem o s
  let s ← sh.shmnList.foldlM (fun s m => do
    let (o, sh) ← getShmem (some o) s
    shmnDestroy m (s.setShmem o (some { sh with shmnList := sh.shmnList.erase m }))) s
  let s := s.setShmem o none
  return { s with shmemPool := s.shmemPool.give o }

/-- The node for an address, which `shmem_get_entry` creates if there is none. -/
def getShmn (o : Option ℕ) (addr : ℕ) (create : Bool) (s : Vm) : Res (Option Shmn × Vm) := do
  let (o, sh) ← getShmem o s
  let (found, sh) := findShmn sh addr
  let s := s.setShmem o (some sh)
  match found with
  | some shmn => do
    assert (shmn.covers addr)
    return (some shmn, s)
  | none =>
    if !create then return (none, s)
    match ← shmnCreate (roundDown addr (pgSize * shmnNentry)) s with
    | (none, s) => return (none, s)
    | (some shmn, s) => do
      let l ← insertShmn sh.shmnList shmn
      return (some shmn, s.setShmem o (some { sh with shmnList := l }))

/-- The last part of `shmem_get_entry`: a page for an entry that is 0. -/
def fillEntry (ptep : ℕ × ℕ) (create : Bool) (s : Vm) : Vm :=
  if s.pte ptep = Pte.zero ∧ create then
    match s.allocPage with
    | (none, s) => s
    | (some page, s) => (s.setPte ptep ⟨page, true, ⟨false, false⟩⟩).pageRefInc page
  else s

/-- `shmem_get_entry`. -/
def shmemGetEntry (o : Option ℕ) (addr : ℕ) (create : Bool) (s : Vm) :
    Res (Option (ℕ × ℕ) × Vm) := do
  let (_, sh) ← getShmem o s
  assert (addr < sh.len)
  let addr := roundDown addr pgSize
  let (found, s) ← getShmn o addr create s
  match found with
  | none => return (none, s)
  | some shmn =>
    let ptep := (shmn.entry, (addr - shmn.start) / pgSize)
    return (some ptep, fillEntry ptep create s)

/-- `shmem_insert_entry` once it has a slot. -/
def setEntry (ptep : ℕ × ℕ) (entry : Pte) (s : Vm) : Res Vm := do
  let s ← if s.pte ptep ≠ Pte.zero then shmemRemoveEntryPte ptep s else .ok s
  let s := if entry.present then s.pageRefInc entry.frame else s
  return s.setPte ptep entry

/-- `shmem_insert_entry`. -/
def shmemInsertEntry (o : Option ℕ) (addr : ℕ) (entry : Pte) (s : Vm) : Res (ℤ × Vm) := do
  match ← shmemGetEntry o addr true s with
  | (none, s) => return (-eNoMem, s)
  | (some ptep, s) => do
    let s ← setEntry ptep entry s
    return (0, s)

/-- `shmem_remove_entry`. -/
def shmemRemoveEntry (o : Option ℕ) (addr : ℕ) (s : Vm) : Res (ℤ × Vm) :=
  shmemInsertEntry o addr Pte.zero s

/-- The functions that `vmm.c` uses. -/
def vmBackend : Backend Vm where
  unmapRange := unmapRange
  exitRange := exitRange
  copyRange := copyRange
  shmemLen := shmemLen
  shmemRefInc := shmemRefInc
  shmemRefDec := shmemRefDec
  shmemDestroy := shmemDestroy

end Ucore
