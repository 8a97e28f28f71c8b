import Ucore.Pmm.Defs

/-!
# Page tables as words

The functions of `arch/x86/pmm.c` that read and set page table entries, once more, and this time as
the hardware sees them: frames are arrays of words, a page directory is a frame as any other, and an
entry has the address of a frame and the permission bits in one word.  `Ucore.Pmm.Defs` has the same
functions on entries that have been taken apart already; `Ucore.Pmm.Sim` says that this makes no
difference.

There are `npage` frames.  `alloc_page` hands out any frame that is not in use, or fails.  An entry
with the address of no frame stops the functions that look for its page, as `pa2page` panics there.

The last section has what is needed of the bits: the frame and the permissions that were put into an
entry can be read from it again (`ppn_entry`, `pteFlags_entry`), if the permissions are permission
bits only (`PermBits`).
-/

set_option autoImplicit false

namespace Ucore

/-- `uintptr_t`, `pte_t` and `pde_t`. -/
abbrev Word : Type := BitVec 32

namespace Word

/-- `PTE_P`. -/
def pteP : Word := 0x001#32

/-- `PTE_W`. -/
def pteW : Word := 0x002#32

/-- `PTE_U`. -/
def pteU : Word := 0x004#32

/-- `PDX(la)`. -/
def pdx (la : Word) : ℕ := (la >>> 22 &&& 0x3FF#32).toNat

/-- `PTX(la)`. -/
def ptx (la : Word) : ℕ := (la >>> 12 &&& 0x3FF#32).toNat

/-- `PPN(la)`. -/
def ppn (la : Word) : ℕ := (la >>> 12).toNat

/-- `PTE_ADDR(pte)` and `PDE_ADDR(pde)`. -/
def pteAddr (pte : Word) : Word := pte &&& ~~~0xFFF#32

/-- The rest of an entry: its permission bits, and `PTE_P`. -/
def pteFlags (pte : Word) : Word := pte &&& 0xFFF#32

/-- The test of `PTE_P`. -/
def present (pte : Word) : Bool := pte &&& pteP ≠ 0

end Word

open Word

/-- Physical memory: the frames in use, the reference counts, and the words in the frames. -/
structure Phys (npage : ℕ) where
  frames : Pool (Fin npage)
  ref : Fin npage → ℤ
  word : Fin npage → ℕ → Word

namespace Phys

variable {npage : ℕ}

/-- `page2pa`. -/
def page2pa (page : Fin npage) : Word := BitVec.ofNat 32 page <<< 12

/-- `pa2page`, which panics if there is no such frame.  `KADDR` makes the same check, and the frame
stands for the address that it returns. -/
def pa2page (pa : Word) : Res (Fin npage) :=
  if h : ppn pa < npage then .ok ⟨ppn pa, h⟩ else .error .assertion

/-- `pte2page`. -/
def pte2page (pte : Word) : Res (Fin npage) := do
  assert (present pte = true)
  pa2page (pteAddr pte)

/-- An assignment to a word. -/
def setWord (s : Phys npage) (p : Fin npage × ℕ) (v : Word) : Phys npage :=
  { s with word := Function.update s.word p.1 (Function.update (s.word p.1) p.2 v) }

/-- `set_page_ref`. -/
def setPageRef (s : Phys npage) (page : Fin npage) (n : ℤ) : Phys npage :=
  { s with ref := Function.update s.ref page n }

/-- `memset(KADDR(pa), 0, PGSIZE)`. -/
def clear (s : Phys npage) (page : Fin npage) : Phys npage :=
  { s with word := Function.update s.word page fun _ => 0 }

/-- `alloc_page`. -/
def allocPage (s : Phys npage) : Option (Fin npage) × Phys npage :=
  match s.frames.take with
  | (page, frames) => (page, { s with frames := frames })

/-- `free_page`, which also clears the reference count.  The frame has to be in use. -/
def freePage (s : Phys npage) (page : Fin npage) : Res (Phys npage) :=
  if page ∈ s.frames.live then
    .ok { s.setPageRef page 0 with frames := s.frames.give page }
  else .error .memory

/-- `get_pte` on a page directory entry that is not present.  The result says whether it is now. -/
def makeTable (pgdir : Fin npage) (la : Word) (create : Bool) (s : Phys npage) :
    Res (Bool × Phys npage) :=
  if !create then .ok (false, s)
  else
    match s.allocPage with
    | (none, s) => .ok (false, s)
    | (some page, s) => do
      let s := s.setPageRef page 1
      let pa := page2pa page
      let f ← pa2page pa
      let s := s.clear f
      return (true, s.setWord (pgdir, Word.pdx la) (pa ||| pteU ||| pteW ||| pteP))

/-- `get_pte`. -/
def getPte (pgdir : Fin npage) (la : Word) (create : Bool) (s : Phys npage) :
    Res (Option (Fin npage × ℕ) × Phys npage) := do
  let (found, s) ←
    if present (s.word pgdir (Word.pdx la)) then .ok (true, s) else makeTable pgdir la create s
  if !found then return (none, s)
  else
    let f ← pa2page (pteAddr (s.word pgdir (Word.pdx la)))
    return (some (f, Word.ptx la), s)

/-- `get_page`, with what it stores at `ptep_store`. -/
def getPage (pgdir : Fin npage) (la : Word) (s : Phys npage) :
    Res (Option (Fin npage) × Option (Fin npage × ℕ)) := do
  match ← getPte pgdir la false s with
  | (none, _) => return (none, none)
  | (some ptep, s) =>
    if present (s.word ptep.1 ptep.2) then do
      let page ← pa2page (s.word ptep.1 ptep.2)
      return (some page, some ptep)
    else return (none, some ptep)

/-- `page_ref_dec` on a page, and `free_page` if that was the last reference. -/
def releasePage (page : Fin npage) (s : Phys npage) : Res (Phys npage) :=
  let s := s.setPageRef page (s.ref page - 1)
  if s.ref page = 0 then s.freePage page else .ok s

/-- `page_remove_pte`. -/
def pageRemovePte (ptep : Fin npage × ℕ) (s : Phys npage) : Res (Phys npage) :=
  if present (s.word ptep.1 ptep.2) then do
    let page ← pte2page (s.word ptep.1 ptep.2)
    let s ← releasePage page s
    return s.setWord ptep 0
  else .ok s

/-- `page_remove`. -/
def pageRemove (pgdir : Fin npage) (la : Word) (s : Phys npage) : Res (Phys npage) := do
  match ← getPte pgdir la false s with
  | (none, s) => return s
  | (some ptep, s) => pageRemovePte ptep s

/-- `page_insert` from `page_ref_inc` on. -/
def insertPte (page : Fin npage) (perm : Word) (ptep : Fin npage × ℕ) (s : Phys npage) :
    Res (Phys npage) := do
  let s := s.setPageRef page (s.ref page + 1)
  let s ←
    if present (s.word ptep.1 ptep.2) then do
      let p ← pte2page (s.word ptep.1 ptep.2)
      if p = page then .ok (s.setPageRef page (s.ref page - 1)) else pageRemovePte ptep s
    else .ok s
  return s.setWord ptep (page2pa page ||| pteP ||| perm)

/-- `page_insert`. -/
def pageInsert (pgdir page : Fin npage) (la perm : Word) (s : Phys npage) :
    Res (ℤ × Phys npage) := do
  match ← getPte pgdir la true s with
  | (none, s) => return (-eNoMem, s)
  | (some ptep, s) => do
    let s ← insertPte page perm ptep s
    return (0, s)

/-- `pgdir_alloc_page`. -/
def pgdirAllocPage (pgdir : Fin npage) (la perm : Word) (s : Phys npage) :
    Res (Option (Fin npage) × Phys npage) :=
  match s.allocPage with
  | (none, s) => .ok (none, s)
  | (some page, s) => do
    let (ret, s) ← pageInsert pgdir page la perm s
    if ret ≠ 0 then
      let s ← s.freePage page
      return (none, s)
    else return (some page, s)

end Phys

/-! ## Bits -/

namespace Word

theorem pdx_eq (la : Word) : pdx la = Ucore.pdx la.toNat := by
  have hlt : la.toNat < 2 ^ 32 := la.isLt
  rw [pdx, Ucore.pdx, BitVec.toNat_and, BitVec.toNat_ushiftRight, Nat.shiftRight_eq_div_pow,
    show (0x3FF#32).toNat = 2 ^ 10 - 1 from rfl, Nat.and_two_pow_sub_one_eq_mod]
  simp only [ptSize]
  omega

theorem ptx_eq (la : Word) : ptx la = Ucore.ptx la.toNat := by
  rw [ptx, Ucore.ptx, BitVec.toNat_and, BitVec.toNat_ushiftRight, Nat.shiftRight_eq_div_pow,
    show (0x3FF#32).toNat = 2 ^ 10 - 1 from rfl, Nat.and_two_pow_sub_one_eq_mod]
  rfl

/-- The mask of the permission bits. -/
theorem getLsbD_mask (i : ℕ) : (0xFFF#32).getLsbD i = decide (i < 12) := by
  rw [show (0xFFF#32 : Word) = BitVec.ofNat 32 (2 ^ 12 - 1) from rfl, BitVec.getLsbD_ofNat,
    Nat.testBit_two_pow_sub_one]
  by_cases h : i < 12
  · simp only [h, decide_true, Bool.and_true, decide_eq_true_eq]
    omega
  · simp only [h, decide_false, Bool.and_false]

theorem present_eq (w : Word) : present w = w.getLsbD 0 := by
  rw [present, pteP, BitVec.and_one_eq_setWidth_ofBool_getLsbD]
  cases BitVec.getLsbD w 0 with
  | false => rfl
  | true => rfl

/-- The frame of an address does not depend on the offset. -/
theorem ppn_pteAddr (w : Word) : ppn (pteAddr w) = ppn w := by
  rw [ppn, ppn, pteAddr]
  congr 1
  refine BitVec.eq_of_getLsbD_eq fun i hi => ?_
  simp only [BitVec.getLsbD_ushiftRight, BitVec.getLsbD_and, BitVec.getLsbD_not, getLsbD_mask]
  by_cases h : 12 + i < 32
  · simp only [h, decide_true, show ¬ 12 + i < 12 by omega, decide_false, Bool.not_false,
      Bool.and_true]
  · rw [BitVec.getLsbD_of_ge w _ (by omega), Bool.false_and]

/-- A word that has permission bits only. -/
def PermBits (perm : Word) : Prop := pteFlags perm = perm

theorem PermBits.getLsbD {perm : Word} (h : PermBits perm) {i : ℕ} (hi : 12 ≤ i) :
    BitVec.getLsbD perm i = false := by
  rw [← h, pteFlags, BitVec.getLsbD_and, getLsbD_mask, decide_eq_false (by omega), Bool.and_false]

theorem PermBits.or {v w : Word} (hv : PermBits v) (hw : PermBits w) : PermBits (v ||| w) := by
  refine BitVec.eq_of_getLsbD_eq fun i hi => ?_
  rw [pteFlags, BitVec.getLsbD_and, getLsbD_mask]
  by_cases h : i < 12
  · rw [decide_eq_true h, Bool.and_true]
  · rw [BitVec.getLsbD_or, hv.getLsbD (by omega), hw.getLsbD (by omega)]
    rfl

end Word

namespace Phys

variable {npage : ℕ} {page : Fin npage} {flags : Word}

theorem getLsbD_page2pa (page : Fin npage) (i : ℕ) : BitVec.getLsbD (page2pa page) i =
    (decide (i < 32) && !decide (i < 12) && (BitVec.ofNat 32 page).getLsbD (i - 12)) :=
  BitVec.getLsbD_shiftLeft ..

/-- **The frame of an entry.** -/
theorem ppn_entry (hn : npage ≤ 2 ^ 20) (hf : PermBits flags) :
    ppn (page2pa page ||| flags) = page := by
  have hpage : (page : ℕ) < 2 ^ 20 := Nat.lt_of_lt_of_le page.isLt hn
  have hshift : (page2pa page ||| flags) >>> 12 = BitVec.ofNat 32 page := by
    refine BitVec.eq_of_getLsbD_eq fun i hi => ?_
    rw [BitVec.getLsbD_ushiftRight, BitVec.getLsbD_or, getLsbD_page2pa, hf.getLsbD (by omega),
      Bool.or_false, Nat.add_sub_cancel_left, decide_eq_false (show ¬ 12 + i < 12 by omega),
      Bool.not_false, Bool.and_true]
    by_cases h : 12 + i < 32
    · rw [decide_eq_true h, Bool.true_and]
    · rw [decide_eq_false h, Bool.false_and, BitVec.getLsbD_ofNat, Nat.testBit_lt_two_pow,
        Bool.and_false]
      exact Nat.lt_of_lt_of_le hpage (Nat.pow_le_pow_right (by decide) (by omega))
  rw [ppn, hshift, BitVec.toNat_ofNat, Nat.mod_eq_of_lt]
  omega

/-- **The permission bits of an entry.** -/
theorem pteFlags_entry (hf : PermBits flags) : pteFlags (page2pa page ||| flags) = flags := by
  refine BitVec.eq_of_getLsbD_eq fun i hi => ?_
  rw [pteFlags, BitVec.getLsbD_and, BitVec.getLsbD_or, getLsbD_page2pa, getLsbD_mask]
  by_cases h : i < 12
  · rw [decide_eq_true h]
    simp
  · rw [decide_eq_false h, Bool.and_false, hf.getLsbD (by omega)]

/-- What `page_insert` writes is present. -/
theorem entry_present (page : Fin npage) (perm : Word) :
    present (page2pa page ||| pteP ||| perm) = true := by
  rw [present_eq, BitVec.getLsbD_or, BitVec.getLsbD_or, show BitVec.getLsbD pteP 0 = true from rfl,
    Bool.or_true, Bool.true_or]

end Phys

end Ucore
