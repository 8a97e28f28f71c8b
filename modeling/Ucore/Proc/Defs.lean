import Ucore.Vmm.Defs

/-!
# The processes of `kern/process/proc.c` and `kern/schedule/sched.c`

A process is known by the address of its `proc_struct`, which is an object of the slab allocator.
The list of all processes and the lists of the hash table are lists of such addresses, from the head
on.  The two static variables of `get_pid` are a `PidState`.

`do_fork` and `schedule` run with interrupts off, so that each of them is one step.  The name of a
process is left out, as nothing depends on it.

The table of hash lists is a function on all words, of which only the first `hashListSize` stand for
lists of the source; `pidHashfn_lt` says that the hash of a pid is one of these.
-/

set_option autoImplicit false

namespace Ucore

/-! ## Constants -/

/-- `MAX_PROCESS`. -/
def maxProcess : ℕ := 4096

/-- `MAX_PID`. -/
def maxPid : ℤ := 8192

/-- `HASH_SHIFT`. -/
def hashShift : UInt32 := 10

/-- `KSTACKPAGE`. -/
def kstackPage : ℕ := 2

/-- `KSTACKSIZE`. -/
def kstackSize : ℕ := kstackPage * pgSize

/-- `E_NO_FREE_PROC`. -/
def eNoFreeProc : ℤ := 5

/-- `HASH_LIST_SIZE`. -/
def hashListSize : ℕ := 2 ^ hashShift.toNat

/-- `CLONE_VM`. -/
def cloneVm : ℕ := 0x100

/-- `page2kva`. -/
def page2kva (page : ℕ) : ℕ := kernBase + page * pgSize

/-- `kva2page`. -/
def kva2page (kva : ℕ) : ℕ := (kva - kernBase) / pgSize

/-! ## `get_pid` -/

/-- `last_pid` and `next_safe`. -/
structure PidState where
  lastPid : ℤ
  nextSafe : ℤ
  deriving DecidableEq, Repr

/-- The values that the static variables start with. -/
def PidState.init : PidState := ⟨maxPid, maxPid⟩

/-- The `while` loop of `get_pid`, over the rest of the list.  The flag is set at `goto repeat`. -/
def scanList : List ℤ → PidState → Bool × PidState
  | [], s => (false, s)
  | pid :: l, s =>
    if pid = s.lastPid then
      let s := { s with lastPid := s.lastPid + 1 }
      if s.lastPid ≥ s.nextSafe then
        let s := if s.lastPid ≥ maxPid then { s with lastPid := 1 } else s
        (true, { s with nextSafe := maxPid })
      else scanList l s
    else if pid > s.lastPid ∧ s.nextSafe > pid then scanList l { s with nextSafe := pid }
    else scanList l s

/-- The code behind `repeat`. -/
def rescan (pids : List ℤ) (s : PidState) : Res PidState := do
  let (_, s) ← doWhile Prod.fst (fun t => .ok (scanList pids t.2)) maxPid.toNat (true, s)
  return s

/-- `get_pid`, for a list of processes with the given pids. -/
def getPid (pids : List ℤ) (s : PidState) : Res (ℤ × PidState) := do
  let s := { s with lastPid := s.lastPid + 1 }
  if s.lastPid ≥ maxPid then
    let s ← rescan pids { lastPid := 1, nextSafe := maxPid }
    return (s.lastPid, s)
  else if s.lastPid ≥ s.nextSafe then
    let s ← rescan pids { s with nextSafe := maxPid }
    return (s.lastPid, s)
  else return (s.lastPid, s)

/-! ## Processes -/

/-- `enum proc_state`. -/
inductive ProcState where
  | uninit
  | sleeping
  | runnable
  | zombie
  deriving DecidableEq, Repr

/-- `struct context`. -/
structure Context where
  eip : ℕ := 0
  esp : ℕ := 0
  ebx : ℕ := 0
  ecx : ℕ := 0
  edx : ℕ := 0
  esi : ℕ := 0
  edi : ℕ := 0
  ebp : ℕ := 0
  deriving DecidableEq, Repr

/-- `struct trapframe`, with the registers of `struct pushregs`. -/
structure Trapframe where
  edi : ℕ := 0
  esi : ℕ := 0
  ebp : ℕ := 0
  oesp : ℕ := 0
  ebx : ℕ := 0
  edx : ℕ := 0
  ecx : ℕ := 0
  eax : ℕ := 0
  es : ℕ := 0
  ds : ℕ := 0
  trapno : ℕ := 0
  err : ℕ := 0
  eip : ℕ := 0
  cs : ℕ := 0
  eflags : ℕ := 0
  esp : ℕ := 0
  ss : ℕ := 0
  deriving DecidableEq, Repr

/-- `struct proc_struct`. -/
structure Proc where
  state : ProcState
  pid : ℤ
  runs : ℤ
  kstack : ℕ
  needResched : Bool
  parent : Option ℕ
  mm : Option ℕ
  context : Context
  tf : Option ℕ
  pgdirAddr : ℕ
  flags : ℕ
  deriving DecidableEq, Repr

/-- The addresses that the linker has chosen. -/
structure Symbols where
  forkret : ℕ
  kernelThreadEntry : ℕ
  initMain : ℕ
  hello : ℕ
  bootstack : ℕ
  bootPgdirP : ℕ

/-- The processes, and what the functions on them read and write. -/
structure Kern where
  sym : Symbols
  /-- The processes in memory. -/
  proc : ℕ → Proc
  /-- The trap frames on the kernel stacks. -/
  tfs : ℕ → Trapframe
  procList : List ℕ
  hashList : UInt32 → List ℕ
  nrProcess : ℕ
  pids : PidState
  idleproc : Option ℕ
  initproc : Option ℕ
  current : Option ℕ
  /-- The objects of the slab allocator. -/
  slab : Pool ℕ
  pages : Pages
  /-- The registers that `switch_to` saves, and the ones that `proc_run` loads. -/
  cpu : Context
  esp0 : ℕ
  cr3 : ℕ

namespace Kern

/-- The assignment of fields of a process. -/
def setProc (s : Kern) (p : ℕ) (v : Proc) : Kern := { s with proc := Function.update s.proc p v }

/-- The process that a pointer refers to. -/
def getProc (s : Kern) : Option ℕ → Res (ℕ × Proc)
  | some p => if p ∈ s.slab.live then .ok (p, s.proc p) else .error .memory
  | none => .error .memory

/-- `kfree`. -/
def kfree (s : Kern) (p : ℕ) : Res Kern :=
  if p ∈ s.slab.live then .ok { s with slab := s.slab.give p } else .error .memory

end Kern

/-- `alloc_proc`. -/
def allocProc (s : Kern) : Option ℕ × Kern :=
  match s.slab.take with
  | (none, slab) => (none, { s with slab := slab })
  | (some p, slab) => (some p, { s with slab := slab }.setProc p
      { state := .uninit
        pid := -1
        runs := 0
        kstack := 0
        needResched := false
        parent := none
        mm := none
        context := {}
        tf := none
        pgdirAddr := s.sym.bootPgdirP
        flags := 0 })

/-- `hash32`. -/
def hash32 (val bits : UInt32) : UInt32 :=
  let hash := val * 0x9e370001
  hash >>> (32 - bits)

/-- `pid_hashfn`. -/
def pidHashfn (pid : ℤ) : UInt32 := hash32 (UInt32.ofInt pid) hashShift

/-- The hash of a pid is an index of the table. -/
theorem pidHashfn_lt (pid : ℤ) : (pidHashfn pid).toNat < hashListSize := by
  -- only the ten upper bits of the product are left
  have hbound := (UInt32.ofInt pid * 0x9e370001).toNat_lt
  show (UInt32.ofInt pid * 0x9e370001).toNat >>> 22 < 2 ^ 10
  rw [Nat.shiftRight_eq_div_pow]
  omega

/-- `hash_proc`. -/
def hashProc (p : ℕ) (s : Kern) : Kern :=
  let b := pidHashfn (s.proc p).pid
  { s with hashList := Function.update s.hashList b (listAddAfter (s.hashList b) none p) }

/-- `find_proc`. -/
def findProc (pid : ℤ) (s : Kern) : Option ℕ :=
  if 0 < pid ∧ pid < maxPid then (s.hashList (pidHashfn pid)).find? fun p => (s.proc p).pid = pid
  else none

/-- `setup_kstack`. -/
def setupKstack (p : ℕ) (s : Kern) : ℤ × Kern :=
  match s.pages.alloc kstackPage with
  | (some page, pages) =>
    (0, { s with pages := pages }.setProc p { s.proc p with kstack := page2kva page })
  | (none, pages) => (-eNoMem, { s with pages := pages })

/-- `put_kstack`. -/
def putKstack (p : ℕ) (s : Kern) : Res Kern := do
  let pages ← s.pages.free (kva2page (s.proc p).kstack) kstackPage
  return { s with pages := pages }

/-- `copy_mm`. -/
def copyMm (_cloneFlags : ℕ) (_p : ℕ) (s : Kern) : Res ℤ := do
  let (_, current) ← s.getProc s.current
  assert (current.mm = none)
  return 0

/-- `sizeof(struct trapframe)`. -/
def trapframeSize : ℕ := 68

/-- `FL_IF`. -/
def flIf : ℕ := 0x200

/-- `copy_thread`. -/
def copyThread (p esp : ℕ) (tf : Trapframe) (s : Kern) : Kern :=
  let addr := (s.proc p).kstack + kstackSize - trapframeSize
  let frame := { tf with eax := 0, esp := esp, eflags := tf.eflags ||| flIf }
  let s := { s with tfs := Function.update s.tfs addr frame }
  s.setProc p { s.proc p with
    tf := some addr
    context := { (s.proc p).context with eip := s.sym.forkret, esp := addr } }

/-- `wakeup_proc`. -/
def wakeupProc (p : ℕ) (s : Kern) : Res Kern := do
  assert ((s.proc p).state ≠ .zombie ∧ (s.proc p).state ≠ .runnable)
  return s.setProc p { s.proc p with state := .runnable }

/-- The part of `do_fork` that makes the process known. -/
def linkProc (p : ℕ) (s : Kern) : Res Kern := do
  let (pid, pids) ← getPid (s.procList.map fun q => (s.proc q).pid) s.pids
  let s := { s with pids := pids }.setProc p { s.proc p with pid := pid }
  let s := hashProc p s
  return { s with
    procList := listAddAfter s.procList none p
    nrProcess := s.nrProcess + 1 }

/-- `do_fork` from `setup_kstack` on, with the labels at its end. -/
def forkChild (cloneFlags stack : ℕ) (tf : Trapframe) (p : ℕ) (s : Kern) : Res (ℤ × Kern) := do
  let (ret, s) := setupKstack p s
  if ret ≠ 0 then
    let s ← s.kfree p
    return (-eNoMem, s)
  else
    let ret ← copyMm cloneFlags p s
    if ret ≠ 0 then
      let s ← putKstack p s
      let s ← s.kfree p
      return (-eNoMem, s)
    else
      let s ← linkProc p (copyThread p stack tf s)
      let s ← wakeupProc p s
      return ((s.proc p).pid, s)

/-- `do_fork`. -/
def doFork (cloneFlags stack : ℕ) (tf : Trapframe) (s : Kern) : Res (ℤ × Kern) :=
  if s.nrProcess ≥ maxProcess then .ok (-eNoFreeProc, s)
  else
    match allocProc s with
    | (none, s) => .ok (-eNoMem, s)
    | (some p, s) =>
      forkChild cloneFlags stack tf p (s.setProc p { s.proc p with parent := s.current })

/-- `KERNEL_CS`. -/
def kernelCs : ℕ := 0x8

/-- `KERNEL_DS`. -/
def kernelDs : ℕ := 0x10

/-- `kernel_thread`. -/
def kernelThread (fn arg cloneFlags : ℕ) (s : Kern) : Res (ℤ × Kern) :=
  doFork (cloneFlags ||| cloneVm) 0
    { cs := kernelCs
      ds := kernelDs
      es := kernelDs
      ss := kernelDs
      ebx := fn
      edx := arg
      eip := s.sym.kernelThreadEntry } s

/-- The part of `proc_init` that sets up the idle process. -/
def initIdle (p : ℕ) (s : Kern) : Kern :=
  let s := s.setProc p { s.proc p with
    pid := 0
    state := .runnable
    kstack := s.sym.bootstack
    needResched := true }
  { s with
    idleproc := some p
    nrProcess := s.nrProcess + 1
    current := some p }

/-- The end of `proc_init`. -/
def initEnd (pid : ℤ) (s : Kern) : Res Kern := do
  if pid ≤ 0 then .error .assertion
  else
    let s := { s with initproc := findProc pid s }
    let (_, idle) ← s.getProc s.idleproc
    assert (idle.pid = 0)
    let (_, init) ← s.getProc s.initproc
    assert (init.pid = 1)
    return s

/-- `proc_init`. -/
def procInit (s : Kern) : Res Kern := do
  let s := { s with procList := [], hashList := fun _ => [] }
  match allocProc s with
  | (none, _) => .error .assertion
  | (some p, s) =>
    let (pid, s) ← kernelThread s.sym.initMain s.sym.hello 0 (initIdle p s)
    initEnd pid s

/-! ## `schedule` -/

/-- `proc_run`. -/
def procRun (p : ℕ) (s : Kern) : Res Kern := do
  if some p ≠ s.current then
    let (prev, _) ← s.getProc s.current
    let (next, _) ← s.getProc (some p)
    let s := { s with
      current := some next
      esp0 := (s.proc next).kstack + kstackSize
      cr3 := (s.proc next).pgdirAddr }
    let s := s.setProc prev { s.proc prev with context := s.cpu }
    return { s with cpu := (s.proc next).context }
  else return s

/-- The loop of `schedule`: the place `le` in the list, `next`, and whether `break` was reached. -/
structure Scan where
  le : Option ℕ
  next : Option ℕ
  found : Bool

/-- The body of the loop of `schedule`. -/
def scanProc (s : Kern) (t : Scan) : Res Scan :=
  match listNext s.procList t.le with
  | none => .ok { t with le := none }
  | some p => .ok { le := some p, next := some p, found := (s.proc p).state = .runnable }

/-- `schedule`. -/
def schedule (s : Kern) : Res Kern := do
  let (c, cur) ← s.getProc s.current
  let s := s.setProc c { cur with needResched := false }
  let last := if s.current = s.idleproc then none else some c
  let t ← doWhile (fun t => !t.found && t.le ≠ last) (scanProc s) (s.procList.length + 1)
    { le := last, next := none, found := false }
  let next := if t.next.all fun p => (s.proc p).state ≠ .runnable then s.idleproc else t.next
  let (n, p) ← s.getProc next
  let s := s.setProc n { p with runs := p.runs + 1 }
  if next ≠ s.current then procRun n s else return s

end Ucore
