import Ucore.Vmm.Defs
import Ucore.Buddy.Defs

/-!
# Setting up physical memory

`page_init` of `arch/x86/pmm.c` finds the memory that the BIOS reports as usable and hands it to the
buddy allocator.  The entries of the memory map have 64 bits, while `ROUNDUP`, `ROUNDDOWN` and
`pa2page` take 32 bits of what they are given.  `end`, the first address behind the kernel, is set
by the linker and is a parameter here.

`boot_map_segment` exists twice, in `arch/x86/pmm.c` and in `arch/arm/pmm.c`.  The two machines cut
an address into indices in different ways, and mark an entry as present with different bits; this is
the `Mmu`.  Page tables are always available, so that `get_pte` never returns `NULL`.
-/

set_option autoImplicit false

namespace Ucore

/-- `E820_ARM`. -/
def e820Arm : ℕ := 1

/-- `sizeof(struct Page)`: the counter, the flags, two integers and the two pointers of a link. -/
def sizeofPage : ℕ := 24

/-- An entry of `struct e820map`. -/
structure E820Entry where
  addr : ℕ
  size : ℕ
  type : ℕ
  deriving DecidableEq, Repr

/-- `begin + size`, in 64 bits. -/
def E820Entry.stop (r : E820Entry) : ℕ := (r.addr + r.size) % 2 ^ 64

/-- `PADDR(kva)`. -/
def paddr (kva : ℕ) : Res ℕ := if kva < kernBase then .error .assertion else .ok (kva - kernBase)

/-- `pa2page(pa)`. -/
def pa2page (npage pa : ℕ) : Res ℕ :=
  if npage ≤ pa / pgSize then .error .assertion else .ok (pa / pgSize)

/-- `maxpa`, after the first loop of `page_init` and the comparison with `KMEMSIZE`. -/
def maxPa (map : List E820Entry) : ℕ :=
  let maxpa := map.foldl (fun maxpa r =>
    if r.type = e820Arm ∧ maxpa < r.stop ∧ r.addr < kmemSize then r.stop else maxpa) 0
  if maxpa > kmemSize then kmemSize else maxpa

/-- `npage`. -/
def npageOf (map : List E820Entry) : ℕ := maxPa map / pgSize

/-- The loop with `SetPageReserved`. -/
def reservePages (npage : ℕ) (s : Buddy) : Buddy :=
  (List.range npage).foldl (fun s i =>
    s.setPage i fun pg => { pg with flags := { pg.flags with reserved := true } }) s

/-- `freemem`, the first physical address behind the page descriptors. -/
def freememOf (kend : ℕ) (map : List E820Entry) : Res ℕ :=
  paddr (addrAdd (roundUp kend pgSize) (sizeofPage * npageOf map))

/-- The range of addresses that the last loop of `page_init` takes from an entry, if there is
one. -/
def usableRange (freemem : ℕ) (r : E820Entry) : Option (ℕ × ℕ) :=
  if r.type = e820Arm then
    let start := if r.addr < freemem then freemem else r.addr
    let stop := if r.stop > kmemSize then kmemSize else r.stop
    if start < stop then
      let start := roundUp (start % 2 ^ 32) pgSize
      let stop := roundDown (stop % 2 ^ 32) pgSize
      if start < stop then some (start, stop) else none
    else none
  else none

/-- The last loop of `page_init`. -/
def initRegions (npage freemem : ℕ) (map : List E820Entry) (s : Buddy) : Res Buddy :=
  map.foldlM (fun s r =>
    match usableRange freemem r with
    | none => .ok s
    | some (start, stop) => do
      let page ← pa2page npage start
      buddyInitMemmap s page ((stop - start) / pgSize)) s

/-- `page_init`. -/
def pageInit (kend : ℕ) (map : List E820Entry) (s : Buddy) : Res Buddy := do
  let s := reservePages (npageOf map) s
  let freemem ← freememOf kend map
  initRegions (npageOf map) freemem map s

/-! ## `boot_map_segment` -/

/-- How a machine finds the entry of an address of 32 bits: each page has one of its own. -/
structure Mmu where
  pdx : ℕ → ℕ
  ptx : ℕ → ℕ
  pteP : ℕ
  same : ∀ a < 2 ^ 32, ∀ b < 2 ^ 32, (pdx a = pdx b ∧ ptx a = ptx b) ↔ a / pgSize = b / pgSize
  pteP_ne : pteP ≠ 0

/-- `PDX`, `PTX` and `PTE_P` of `arch/x86/include/mmu.h`. -/
def x86Mmu : Mmu where
  pdx la := la / 2 ^ 22 % 1024
  ptx la := la / 2 ^ 12 % 1024
  pteP := 1
  same a ha b hb := by
    simp only [pgSize]
    omega
  pteP_ne := by decide

/-- `PDX`, `PTX` and `PTE_P` of `arch/arm/include/mmu.h`. -/
def armMmu : Mmu where
  pdx la := la / 2 ^ 20 % 4096
  ptx la := la / 2 ^ 12 % 256
  pteP := 2
  same a ha b hb := by
    simp only [pgSize]
    omega
  pteP_ne := by decide

/-- A page directory with its page tables. -/
abbrev PageTables := ℕ → Option (ℕ → ℕ)

namespace PageTables

/-- `get_pte(pgdir, la, 1)`: the page table is made if it is not there. -/
def getPte (M : Mmu) (la : ℕ) (t : PageTables) : PageTables :=
  match t (M.pdx la) with
  | some _ => t
  | none => Function.update t (M.pdx la) (some fun _ => 0)

/-- An assignment to the entry of an address. -/
def setPte (M : Mmu) (la v : ℕ) (t : PageTables) : PageTables :=
  Function.update t (M.pdx la) ((t (M.pdx la)).map fun f => Function.update f (M.ptx la) v)

/-- The entry of an address, which is 0 without a page table. -/
def entry (M : Mmu) (t : PageTables) (la : ℕ) : ℕ := (t (M.pdx la)).elim 0 fun f => f (M.ptx la)

/-- The body of the loops of `boot_map_segment`. -/
def mapPage (M : Mmu) (perm la pa : ℕ) (t : PageTables) : PageTables :=
  (t.getPte M la).setPte M la (pa ||| M.pteP ||| perm)

end PageTables

/-- `for (; n > 0; n = dec(n), la += PGSIZE, pa += PGSIZE)` with the body that maps a page. -/
def mapLoop (M : Mmu) (dec : ℕ → ℕ) (perm fuel n la pa : ℕ) (t : PageTables) : Res PageTables := do
  let (_, _, _, t) ← whileLoop (fun st : ℕ × ℕ × ℕ × PageTables => decide (0 < st.1))
    (fun st => .ok (dec st.1, addrAdd st.2.1 pgSize, addrAdd st.2.2.1 pgSize,
      st.2.2.2.mapPage M perm st.2.1 st.2.2.1))
    fuel (n, la, pa, t)
  return t

/-- `boot_map_segment` for x86, which counts pages. -/
def bootMapSegment (fuel : ℕ) (t : PageTables) (la size pa perm : ℕ) : Res PageTables := do
  assert (la % pgSize = pa % pgSize)
  let n := roundUp (addrAdd size (la % pgSize)) pgSize / pgSize
  mapLoop x86Mmu (fun n => n - 1) perm fuel n (roundDown la pgSize) (roundDown pa pgSize) t

/-- `boot_map_segment` for ARM, which counts bytes: `size -= PGSIZE` has 32 bits. -/
def armBootMapSegment (fuel : ℕ) (t : PageTables) (la size pa perm : ℕ) : Res PageTables := do
  assert (la % pgSize = pa % pgSize)
  mapLoop armMmu (fun size => (size + (2 ^ 32 - pgSize)) % 2 ^ 32) perm fuel size
    (roundDown la pgSize) (roundDown pa pgSize) t

end Ucore
