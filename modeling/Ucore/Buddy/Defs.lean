import Ucore.Lib.Loop
import Ucore.Lib.Dyadic

/-!
# The buddy allocator of `kern/mm/buddy_pmm.c`

A page is the index of its descriptor in the array `pages`, so that `base + n` is pointer arithmetic
and `page2ppn` is the identity.  A free list is the list of the pages on it, first page first:
`list_add` puts a page in front, and `list_del`, which does not know on which list an entry is,
takes a page off every list.  `npage`, the number of page descriptors, is a parameter.

The functions have the names and the assertions of the source, and so have their loops, each of
which is a definition of its own: `splitBlock` is the inner loop of `buddyAllocPagesSub`,
`mergeBuddies` the loop of `buddyFreePagesSub`, and so on.  An assertion that fails stops; that none
does is shown together with what the functions do.
-/

set_option autoImplicit false

namespace Ucore

/-- The flag bits of `struct Page`. -/
structure PageFlags where
  reserved : Bool := false
  property : Bool := false
  slab : Bool := false
  dirty : Bool := false
  swap : Bool := false
  active : Bool := false
  deriving DecidableEq, Repr

/-- `struct Page`, without its link. -/
structure Page where
  ref : ℤ
  flags : PageFlags
  property : ℕ
  zoneNum : ℕ
  deriving DecidableEq, Repr

/-- `free_area_t`. -/
structure FreeArea where
  freeList : List ℕ
  nrFree : ℤ
  deriving DecidableEq, Repr

/-- The pages and the static data of the allocator.  `zoneNum` is the counter of
`buddy_init_memmap`, and `memBase` the array `zones`. -/
structure Buddy where
  page : ℕ → Page
  freeArea : ℕ → FreeArea
  memBase : ℕ → ℕ
  zoneNum : ℕ

/-- `MAX_ORDER`. -/
def maxOrder : ℕ := 10

/-- `MAX_ZONE_NUM`. -/
def maxZoneNum : ℕ := 10

namespace Buddy

/-- An assignment to fields of the page `p`. -/
def setPage (s : Buddy) (p : ℕ) (f : Page → Page) : Buddy :=
  { s with page := Function.update s.page p (f (s.page p)) }

/-- An assignment to fields of the free area of an order. -/
def setArea (s : Buddy) (order : ℕ) (f : FreeArea → FreeArea) : Buddy :=
  { s with freeArea := Function.update s.freeArea order (f (s.freeArea order)) }

/-- `SetPageProperty(p)`. -/
def setPageProperty (s : Buddy) (p : ℕ) : Buddy :=
  s.setPage p fun pg => { pg with flags := { pg.flags with property := true } }

/-- `ClearPageProperty(p)`. -/
def clearPageProperty (s : Buddy) (p : ℕ) : Buddy :=
  s.setPage p fun pg => { pg with flags := { pg.flags with property := false } }

/-- `p->property = order`. -/
def setProperty (s : Buddy) (p order : ℕ) : Buddy :=
  s.setPage p fun pg => { pg with property := order }

/-- `list_add(&free_list(order), &(p->page_link))`. -/
def listAdd (s : Buddy) (order p : ℕ) : Buddy :=
  s.setArea order fun a => { a with freeList := p :: a.freeList }

/-- `list_del(&(p->page_link))`. -/
def listDel (s : Buddy) (p : ℕ) : Buddy :=
  { s with freeArea := fun k => { s.freeArea k with freeList := (s.freeArea k).freeList.erase p } }

/-- `nr_free(order) += d`. -/
def addNrFree (s : Buddy) (order : ℕ) (d : ℤ) : Buddy :=
  s.setArea order fun a => { a with nrFree := a.nrFree + d }

/-- The four lines that put the block of order `order` at `p` on its free list. -/
def addBlock (s : Buddy) (p order : ℕ) : Buddy :=
  (((s.setProperty p order).setPageProperty p).addNrFree order 1).listAdd order p

end Buddy

/-! ## Initialisation -/

/-- `buddy_init`. -/
def buddyInit (s : Buddy) : Buddy :=
  { s with freeArea := fun i => if i ≤ maxOrder then ⟨[], 0⟩ else s.freeArea i }

/-- The first loop of `buddy_init_memmap`: `n` pages from `p` on enter the current zone. -/
def initPages (s : Buddy) (p : ℕ) : ℕ → Res Buddy
  | 0 => .ok s
  | n + 1 => do
    assert ((s.page p).flags.reserved = true)
    initPages (s.setPage p fun _ => ⟨0, {}, 0, s.zoneNum⟩) (p + 1) n

/-- The inner `while` loop of `buddy_init_memmap`, on the allocator, `p` and `n`. -/
def carveOrder (order : ℕ) (st : Buddy × ℕ × ℕ) : Res (Buddy × ℕ × ℕ) :=
  whileLoop (fun st => decide (2 ^ order ≤ st.2.2))
    (fun st => .ok (st.1.addBlock st.2.1 order, st.2.1 + 2 ^ order, st.2.2 - 2 ^ order))
    st.2.2 st

/-- The outer `while` loop of `buddy_init_memmap`. -/
def carve (s : Buddy) (p n : ℕ) : Res ((Buddy × ℕ × ℕ) × ℕ) :=
  whileLoop (fun st => decide (st.1.2.2 ≠ 0))
    (fun st => do
      let st' ← carveOrder st.2 st.1
      return (st', st.2 - 1))
    (maxOrder + 1) ((s, p, n), maxOrder)

/-- `buddy_init_memmap`. -/
def buddyInitMemmap (s : Buddy) (base n : ℕ) : Res Buddy := do
  assert (0 < n ∧ s.zoneNum < maxZoneNum)
  let s ← initPages s base n
  let s := { s with memBase := Function.update s.memBase s.zoneNum base, zoneNum := s.zoneNum + 1 }
  let (st, _) ← carve s base n
  return st.1

/-! ## Freeing -/

/-- `page2idx`. -/
def page2idx (s : Buddy) (p : ℕ) : ℕ := p - s.memBase (s.page p).zoneNum

/-- `idx2page`. -/
def idx2page (s : Buddy) (zoneNum idx : ℕ) : ℕ := s.memBase zoneNum + idx

/-- `page_is_buddy`. -/
def pageIsBuddy (npage : ℕ) (s : Buddy) (p order zoneNum : ℕ) : Bool :=
  if p < npage then
    if (s.page p).zoneNum = zoneNum then
      !(s.page p).flags.reserved && (s.page p).flags.property && (s.page p).property == order
    else false
  else false

/-- The first loop of `buddy_free_pages_sub`, over `n` pages from `p` on. -/
def clearPages (s : Buddy) (p : ℕ) : ℕ → Res Buddy
  | 0 => .ok s
  | n + 1 => do
    assert ((s.page p).flags.reserved = false ∧ (s.page p).flags.property = false)
    clearPages (s.setPage p fun pg => { pg with flags := {}, ref := 0 }) (p + 1) n

/-- The merging loop of `buddy_free_pages_sub`, on the allocator, `page_idx` and `order`. -/
def mergeBuddies (npage zoneNum : ℕ) (st : Buddy × ℕ × ℕ) : Res (Buddy × ℕ × ℕ) :=
  whileLoop
    (fun st => decide (st.2.2 < maxOrder) &&
      pageIsBuddy npage st.1 (idx2page st.1 zoneNum (st.2.1 ^^^ 2 ^ st.2.2)) st.2.2 zoneNum)
    (fun st =>
      let buddyIdx := st.2.1 ^^^ 2 ^ st.2.2
      let buddy := idx2page st.1 zoneNum buddyIdx
      .ok (((st.1.addNrFree st.2.2 (-1)).listDel buddy).clearPageProperty buddy,
        st.2.1 &&& buddyIdx, st.2.2 + 1))
    maxOrder st

/-- `buddy_free_pages_sub`. -/
def buddyFreePagesSub (npage : ℕ) (s : Buddy) (base order : ℕ) : Res Buddy := do
  let pageIdx := page2idx s base
  assert (pageIdx &&& (2 ^ order - 1) = 0)
  let s ← clearPages s base (2 ^ order)
  let zoneNum := (s.page base).zoneNum
  let (s, pageIdx, order) ← mergeBuddies npage zoneNum (s, pageIdx, order)
  return s.addBlock (idx2page s zoneNum pageIdx) order

/-- The first `while` loop of `buddy_free_pages`, on the allocator, `base`, `n` and `order`. -/
def freeUp (npage : ℕ) (st : Buddy × ℕ × ℕ × ℕ) : Res (Buddy × ℕ × ℕ × ℕ) :=
  whileLoop (fun st => decide (2 ^ st.2.2.2 ≤ st.2.2.1))
    (fun st => do
      let (s, base, n, order) := st
      assert (order ≤ maxOrder)
      if page2idx s base &&& 2 ^ order ≠ 0 then
        let s ← buddyFreePagesSub npage s base order
        return (s, base + 2 ^ order, n - 2 ^ order, order + 1)
      else return (s, base, n, order + 1))
    (maxOrder + 2) st

/-- `while (n < order_size) order --`. -/
def lowerOrder (n order : ℕ) : Res ℕ :=
  whileLoop (fun order => decide (n < 2 ^ order)) (fun order => .ok (order - 1)) order order

/-- The second `while` loop of `buddy_free_pages`. -/
def freeDown (npage : ℕ) (st : Buddy × ℕ × ℕ × ℕ) : Res (Buddy × ℕ × ℕ × ℕ) :=
  whileLoop (fun st => decide (st.2.2.1 ≠ 0))
    (fun st => do
      let (s, base, n, order) := st
      let order ← lowerOrder n order
      let s ← buddyFreePagesSub npage s base order
      return (s, base + 2 ^ order, n - 2 ^ order, order))
    st.2.2.1 st

/-- `buddy_free_pages`. -/
def buddyFreePages (npage : ℕ) (s : Buddy) (base n : ℕ) : Res Buddy := do
  assert (0 < n)
  if n = 1 then buddyFreePagesSub npage s base 0
  else
    let st ← freeUp npage (s, base, n, 0)
    let (s, _) ← freeDown npage st
    return s

/-! ## Allocation -/

/-- `getorder`: the first order whose blocks are large enough. -/
def getorder (n : ℕ) : Res ℕ :=
  match (List.range (maxOrder + 1)).find? fun order => n ≤ 2 ^ order with
  | some order => .ok order
  | none => .error .assertion

/-- The inner loop of `buddy_alloc_pages_sub`: the upper half of the block of order `curOrder` at
`page` becomes free, and so on down to `order`. -/
def splitBlock (order page : ℕ) : ℕ → Buddy → Buddy
  | 0, s => s
  | curOrder + 1, s =>
    if order < curOrder + 1 then
      splitBlock order page curOrder (s.addBlock (page + 2 ^ curOrder) curOrder)
    else s

/-- `buddy_alloc_pages_sub`: the first order with a free block is the one to take it from. -/
def buddyAllocPagesSub (s : Buddy) (order : ℕ) : Res (Option ℕ × Buddy) := do
  assert (order ≤ maxOrder)
  let orders := (List.range (maxOrder + 1)).filter fun k => order ≤ k
  match orders.find? fun k => !(s.freeArea k).freeList.isEmpty with
  | none => return (none, s)
  | some curOrder =>
    match (s.freeArea curOrder).freeList with
    | [] => return (none, s)
    | page :: _ =>
      let s := (s.addNrFree curOrder (-1)).listDel page
      let s := splitBlock order page curOrder s
      return (some page, s.clearPageProperty page)

/-- `buddy_alloc_pages`. -/
def buddyAllocPages (npage : ℕ) (s : Buddy) (n : ℕ) : Res (Option ℕ × Buddy) := do
  assert (0 < n)
  let order ← getorder n
  let (page, s) ← buddyAllocPagesSub s order
  match page with
  | none => return (none, s)
  | some page =>
    if n ≠ 2 ^ order then
      let s ← buddyFreePages npage s (page + n) (2 ^ order - n)
      return (some page, s)
    else return (some page, s)

/-- `buddy_nr_free_pages`. -/
def buddyNrFreePages (s : Buddy) : ℤ :=
  ((List.range (maxOrder + 1)).map fun order => (s.freeArea order).nrFree * 2 ^ order).sum

end Ucore
