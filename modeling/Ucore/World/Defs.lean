import Ucore.Pmm.Defs

/-!
# Page faults, and all address spaces together

`do_pgfault` and the state that the operations on memory work on as a whole: any number of address
spaces, each with a page directory, over one `Vm`.  `World.step` performs one operation, and a `Run`
is any sequence of operations that have returned.

Address spaces are numbered in the order in which they are created, and the number of an address
space is also that of its page directory, which has no user entries at first.  A user access that
the page table does not permit goes to `do_pgfault`, and is then made again.  What the allocators
will answer can be changed at any time, and so can the contents of a frame that is not in use here.

## What is here

* `faultIn` and `doPgfault` are `do_pgfault`, behind the search for the area and as a whole.
* `Op` are the operations: the calls of `vmm.c` that a process makes, a user access to one byte, the
  creation of a shared memory object, and what the rest of the kernel may do meanwhile.
* `World.step` is one of them, with its result.  It stops where the code stops at an assertion or
  follows a pointer to nothing.

A `Run` has its operations and results with the last one first, so that an induction on a run goes
through the operations as they were made.
-/

set_option autoImplicit false

namespace Ucore

open Vm

/-! ## `do_pgfault` -/

/-- The `switch` on the two low bits of the error code. -/
def faultAllowed (flags : VmFlags) (errorCode : ℕ) : Bool :=
  match errorCode % 4 with
  | 0 => flags.read || flags.exec
  | 1 => false
  | _ => flags.write

/-- `memcpy(page2kva(dst), page2kva(src), PGSIZE)`. -/
def Vm.copyMem (s : Vm) (dst src : ℕ) : Vm :=
  { s with mem := Function.update s.mem dst (s.mem src) }

/-- `do_pgfault` on an entry that is 0, in a shared area. -/
def faultShared (a : Vma) (pgdir addr : ℕ) (perm : Perm) (ptep : ℕ × ℕ) (s : Vm) :
    Res (ℤ × Vm) := do
  let shmemAddr := addrAdd (addr - a.vmStart) a.shmemOff
  match ← shmemGetEntry a.shmem shmemAddr true s with
  | (none, s) => return (-eNoMem, s)
  | (some shPtep, s) =>
    if s.pte shPtep = Pte.zero then return (-eNoMem, s)
    else if (s.pte shPtep).present then do
      let (_, s) ← pageInsert pgdir (s.pte shPtep).frame addr perm s
      return (0, s)
    else return (0, s.setPte ptep (s.pte shPtep))

/-- `do_pgfault` on an entry that is 0, in a private area. -/
def faultPrivate (pgdir addr : ℕ) (perm : Perm) (s : Vm) : Res (ℤ × Vm) := do
  let (page, s) ← pgdirAllocPage pgdir addr perm s
  return (if page.isNone then -eNoMem else 0, s)

/-- The end of `do_pgfault`: `page` is mapped, and `newpage` given back if it was not needed. -/
def mapPage (pgdir page addr : ℕ) (perm : Perm) (newpage : Option ℕ) (s : Vm) : Res (ℤ × Vm) := do
  let (_, s) ← pageInsert pgdir page addr perm s
  let s ← newpage.elim (.ok s) s.freePage
  return (0, s)

/-- `do_pgfault` on an entry that is not 0: copy on write. -/
def faultCow (a : Vma) (pgdir errorCode addr : ℕ) (perm : Perm) (ptep : ℕ × ℕ) (s : Vm) :
    Res (ℤ × Vm) := do
  let cow := a.vmFlags.write && !a.vmFlags.share
  assert ((s.pte ptep).present = false ∨
    errorCode / 2 % 2 = 1 ∧ (s.pte ptep).perm.writable = false ∧ cow = true)
  let (newpage, s) := if cow then s.allocPage else (none, s)
  -- an entry that is not present would be one for a swapped page
  assert ((s.pte ptep).present = true)
  let page := (s.pte ptep).frame
  if cow ∧ s.ref page > 1 then
    match newpage with
    | none => return (-eNoMem, s)
    | some newpage => mapPage pgdir newpage addr perm none (s.copyMem newpage page)
  else mapPage pgdir page addr perm newpage s

/-- `do_pgfault` once it has found the area. -/
def faultIn (a : Vma) (pgdir errorCode addr : ℕ) (s : Vm) : Res (ℤ × Vm) :=
  if !faultAllowed a.vmFlags errorCode then .ok (-eInval, s)
  else
    let perm : Perm := ⟨a.vmFlags.write, true⟩
    let addr := roundDown addr pgSize
    match getPte pgdir addr true s with
    | (none, s) => .ok (-eNoMem, s)
    | (some ptep, s) =>
      if s.pte ptep = Pte.zero then
        if !a.vmFlags.share then faultPrivate pgdir addr perm s
        else faultShared a pgdir addr perm ptep s
      else faultCow a pgdir errorCode addr perm ptep s

/-- `do_pgfault`. -/
def doPgfault (mm : Mm) (errorCode addr : ℕ) (s : Vm) : Res (ℤ × Mm × Vm) := do
  let (found, mm) ← findVma mm addr
  match found.filter fun v => (mm.vma v).vmStart ≤ addr with
  | none => return (-eInval, mm, s)
  | some v => do
    let (ret, s) ← faultIn (mm.vma v) mm.pgdir errorCode addr s
    return (ret, mm, s)

/-! ## The processor -/

/-- The entry that the processor finds for an address. -/
def Vm.lookup (s : Vm) (pgdir la : ℕ) : Pte :=
  (s.pgdir pgdir (pdx la)).elim Pte.zero fun f => s.table f (ptx la)

/-- An entry permits a user access. -/
def Pte.permits (e : Pte) (write : Bool) : Bool :=
  e.present && e.perm.user && (!write || e.perm.writable)

/-- The error code of an access by a user that an entry does not permit. -/
def Pte.errorCode (e : Pte) (write : Bool) : ℕ :=
  4 + (if write then 2 else 0) + if e.present then 1 else 0

/-- The assignment of a byte. -/
def Vm.setByte (s : Vm) (page off : ℕ) (b : UInt8) : Vm :=
  { s with mem := Function.update s.mem page (Function.update (s.mem page) off b) }

/-! ## All address spaces -/

/-- The address spaces in use, how many there have been, and the memory under them. -/
structure World where
  mms : Finset ℕ
  next : ℕ
  mm : ℕ → Mm
  vm : Vm

/-- What an operation returns. -/
inductive Ret where
  | code (n : ℤ)
  | value (b : UInt8)
  deriving DecidableEq

/-- The operations. -/
inductive Op where
  | mmCreate (script : List (Option ℕ))
  | shmemCreate (len : ℕ)
  | mmMap (i addr len : ℕ) (flags : VmFlags)
  | mmMapShmem (i addr : ℕ) (flags : VmFlags) (shmem : Option ℕ)
  | mmUnmap (i addr len : ℕ)
  | pgfault (i errorCode addr : ℕ)
  | dupMmap (src : ℕ) (script : List (Option ℕ))
  | exitMmap (i : ℕ)
  | mmDestroy (i : ℕ)
  | read (i addr : ℕ)
  | write (i addr : ℕ) (b : UInt8)
  | supply (frames objects nodes : List (Option ℕ))
  | supplyMm (i : ℕ) (script : List (Option ℕ))
  | scribble (page : ℕ) (contents : ℕ → UInt8)

/-- The operations that may call `do_pgfault`. -/
def Op.faults : Op → Bool
  | .pgfault _ _ _ | .read _ _ | .write _ _ _ => true
  | _ => false

/-- The address space that an operation works on. -/
def Op.on : Op → Option ℕ
  | .mmMap i _ _ _ | .mmMapShmem i _ _ _ | .mmUnmap i _ _ | .pgfault i _ _ | .dupMmap i _
  | .exitMmap i | .mmDestroy i | .read i _ | .write i _ _ | .supplyMm i _ => some i
  | .mmCreate _ | .shmemCreate _ | .supply _ _ _ | .scribble _ _ => none

namespace World

/-- Nothing has been created. -/
def init : World :=
  ⟨∅, 0, fun _ => mmCreate 0 ⟨∅, []⟩, ⟨⟨∅, []⟩, fun _ => 0, fun _ _ => Pte.zero, fun _ _ => 0,
    fun _ _ => none, fun _ => none, ⟨∅, []⟩, ⟨∅, []⟩⟩⟩

/-- The address space that a pointer refers to. -/
def getMm (w : World) (i : ℕ) : Res Mm := if i ∈ w.mms then .ok (w.mm i) else .error .memory

/-- The address space `i` and the memory after an operation. -/
def set (w : World) (i : ℕ) (mm : Mm) (vm : Vm) : World :=
  { w with mm := Function.update w.mm i mm, vm := vm }

/-- The next address space, made by `mm_create`. -/
def newMm (w : World) (script : List (Option ℕ)) : Mm := Ucore.mmCreate w.next ⟨∅, script⟩

/-- A new address space enters the world. -/
def add (w : World) (mm : Mm) (vm : Vm) : World :=
  { mms := insert w.next w.mms
    next := w.next + 1
    mm := Function.update w.mm w.next mm
    vm := vm }

theorem set_mm_self (w : World) (i : ℕ) (mm : Mm) (vm : Vm) : (w.set i mm vm).mm i = mm :=
  Function.update_self ..

theorem set_mm_of_ne (w : World) {i j : ℕ} (h : j ≠ i) (mm : Mm) (vm : Vm) :
    (w.set i mm vm).mm j = w.mm j := Function.update_of_ne h ..

theorem add_mm_next (w : World) (mm : Mm) (vm : Vm) : (w.add mm vm).mm w.next = mm :=
  Function.update_self ..

theorem add_mm_of_ne (w : World) {j : ℕ} (h : j ≠ w.next) (mm : Mm) (vm : Vm) :
    (w.add mm vm).mm j = w.mm j := Function.update_of_ne h ..

/-- A user access.  If the page table does not permit it, `do_pgfault` is called; the result says
whether the access may be made again. -/
def access (w : World) (i addr : ℕ) (write : Bool) : Res (ℤ × World) := do
  let mm ← w.getMm i
  let e := w.vm.lookup mm.pgdir addr
  if e.permits write then return (0, w)
  else
    let (ret, mm, vm) ← doPgfault mm (e.errorCode write) addr w.vm
    return (ret, w.set i mm vm)

/-- The entry for an access that is made again, which must not fault once more. -/
def retry (w : World) (i addr : ℕ) (write : Bool) : Res Pte := do
  let mm ← w.getMm i
  let e := w.vm.lookup mm.pgdir addr
  if e.permits write then return e else .error .fuel

/-- A read of one byte. -/
def userRead (w : World) (i addr : ℕ) : Res (Ret × World) := do
  let (ret, w) ← w.access i addr false
  if ret ≠ 0 then return (.code ret, w)
  else
    let e ← w.retry i addr false
    return (.value (w.vm.mem e.frame (addr % pgSize)), w)

/-- A write of one byte. -/
def userWrite (w : World) (i addr : ℕ) (b : UInt8) : Res (Ret × World) := do
  let (ret, w) ← w.access i addr true
  if ret ≠ 0 then return (.code ret, w)
  else
    let e ← w.retry i addr true
    return (.code 0, { w with vm := w.vm.setByte e.frame (addr % pgSize) b })

/-- One operation. -/
def step (w : World) : Op → Res (Ret × World)
  | .mmCreate script => .ok (.code 0, w.add (w.newMm script) w.vm)
  | .shmemCreate len =>
    match Ucore.shmemCreate len w.vm with
    | (none, vm) => .ok (.code 0, { w with vm := vm })
    | (some o, vm) => .ok (.code o, { w with vm := vm })
  | .mmMap i addr len flags => do
    let mm ← w.getMm i
    let (ret, _, mm) ← Ucore.mmMap mm addr len flags
    return (.code ret, w.set i mm w.vm)
  | .mmMapShmem i addr flags shmem => do
    let mm ← w.getMm i
    let (ret, mm, vm) ← Ucore.mmMapShmem vmBackend mm addr flags shmem w.vm
    return (.code ret, w.set i mm vm)
  | .mmUnmap i addr len => do
    let mm ← w.getMm i
    let (ret, mm, vm) ← Ucore.mmUnmap vmBackend mm addr len w.vm
    return (.code ret, w.set i mm vm)
  | .pgfault i errorCode addr => do
    let mm ← w.getMm i
    let (ret, mm, vm) ← doPgfault mm errorCode addr w.vm
    return (.code ret, w.set i mm vm)
  | .dupMmap src script => do
    let mm ← w.getMm src
    let (ret, mm, vm) ← Ucore.dupMmap vmBackend (w.newMm script) mm w.vm
    return (.code ret, w.add mm vm)
  | .exitMmap i => do
    let mm ← w.getMm i
    let vm ← Ucore.exitMmap vmBackend mm w.vm
    return (.code 0, w.set i mm vm)
  | .mmDestroy i => do
    let mm ← w.getMm i
    let (_, vm) ← Ucore.mmDestroy vmBackend mm w.vm
    return (.code 0, { w with mms := w.mms.erase i, vm := vm })
  | .read i addr => w.userRead i addr
  | .write i addr b => w.userWrite i addr b
  | .supply frames objects nodes =>
    .ok (.code 0, { w with vm := { w.vm with
      frames := { w.vm.frames with script := frames }
      shmemPool := { w.vm.shmemPool with script := objects }
      shmnPool := { w.vm.shmnPool with script := nodes } } })
  | .supplyMm i script => do
    let mm ← w.getMm i
    return (.code 0, w.set i { mm with kmem := { mm.kmem with script := script } } w.vm)
  | .scribble page contents =>
    if page ∈ w.vm.frames.live then .error .memory
    else .ok (.code 0, { w with vm := { w.vm with mem := Function.update w.vm.mem page contents } })

/-- The runs whose operations all meet a condition on the operation and the state before it, with
the operations and what they have returned, the last one first. -/
inductive Run (ok : World → Op → Prop) : List (Op × Ret) → World → Prop
  | init : Run ok [] init
  | step {ops : List (Op × Ret)} {w w' : World} {op : Op} {ret : Ret} (run : Run ok ops w)
      (hok : ok w op) (hstep : w.step op = .ok (ret, w')) : Run ok ((op, ret) :: ops) w'

end World

end Ucore
