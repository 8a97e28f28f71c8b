import Mathlib.Algebra.Ring.Nat
import Mathlib.Logic.Function.Basic
import Ucore.Lib.Asm

/-!
# The processor

The instructions of the ARM processor that the routines of `arch/arm/lib` are written with.  Every
instruction may be executed on a condition, so the conditions are those of `Line`, and every
instruction may set the flags, also in the middle of a computation.

* `Cpu` has the registers, the four flags and the memory, word by word.
* `Operand.value` is the second operand: a number, a register, or a register that is shifted, and
  the carry that the shift leaves behind.
* `addWithCarry` is the addition of the processor, from which the carry and the overflow come for
  sums, differences and comparisons alike.
* `Instr.exec` is one instruction, and `cpu` makes a machine of all this, for the routines of
  `Ucore.Lib.Asm`.

The stack grows down, and its words are accessed by their addresses.
-/

set_option autoImplicit false

namespace Ucore.Arm

/-- The registers. -/
inductive Reg where
  | r0 | r1 | r2 | r3 | r4 | r5 | r6 | r7 | r8 | r9 | r10 | r11 | ip | sp | lr | pc
  deriving DecidableEq, Repr

/-- What is behind the name of an instruction.  `hs` is `cs`, and `lo` is `cc`. -/
inductive Cond where
  | al | eq | ne | cs | cc | mi | pl | vs | vc | hi | ls | ge | lt | gt | le
  deriving DecidableEq, Repr

inductive Shift where
  | lsl | lsr | asr | ror
  deriving DecidableEq, Repr

/-- The last operand of an instruction. -/
inductive Operand where
  /-- `#v` -/
  | imm (v : BitVec 32)
  /-- `r` -/
  | reg (r : Reg)
  /-- `r, t #n` -/
  | shift (t : Shift) (r : Reg) (n : ℕ)
  /-- `r, t rs` -/
  | shiftReg (t : Shift) (r rs : Reg)
  deriving DecidableEq, Repr

inductive Op where
  | add | adc | sub | rsb | and | orr | eor
  deriving DecidableEq, Repr

inductive Instr where
  /-- `<op> rd, rn, o`, with an `s` behind it if the flags are set. -/
  | dp (op : Op) (s : Bool) (rd rn : Reg) (o : Operand)
  /-- `mov rd, o` -/
  | mov (s : Bool) (rd : Reg) (o : Operand)
  /-- An operation for its flags: `cmp`, `cmn`, `tst` and `teq`. -/
  | test (op : Op) (rn : Reg) (o : Operand)
  /-- `mul rd, rm, rs` -/
  | mul (rd rm rs : Reg)
  /-- `str rd, [sp, #-n]!` -/
  | push (rd : Reg) (n : BitVec 32)
  /-- `ldr rd, [sp], #n` -/
  | pop (rd : Reg) (n : BitVec 32)
  /-- `stmfd sp!, {rs}`, for registers in the order of their numbers. -/
  | stmfd (rs : List Reg)
  /-- `ldmfd sp!, {rs}` and `ldmia sp!, {rs}` -/
  | ldmfd (rs : List Reg)
  /-- `bl`, with the address of the next instruction. -/
  | bl (ret : BitVec 32)
  deriving DecidableEq, Repr

namespace Instr

abbrev add : Reg → Reg → Operand → Instr := dp .add false
abbrev sub : Reg → Reg → Operand → Instr := dp .sub false
abbrev subs : Reg → Reg → Operand → Instr := dp .sub true
abbrev adcs : Reg → Reg → Operand → Instr := dp .adc true
abbrev rsb : Reg → Reg → Operand → Instr := dp .rsb false
abbrev and : Reg → Reg → Operand → Instr := dp .and false
abbrev ands : Reg → Reg → Operand → Instr := dp .and true
abbrev orr : Reg → Reg → Operand → Instr := dp .orr false
abbrev eor : Reg → Reg → Operand → Instr := dp .eor false
abbrev cmp : Reg → Operand → Instr := test .sub
abbrev cmn : Reg → Operand → Instr := test .add
abbrev tst : Reg → Operand → Instr := test .and
abbrev teq : Reg → Operand → Instr := test .eor

end Instr

/-- The state of the processor: the registers, the flags and the words of the memory. -/
structure Cpu where
  reg : Reg → BitVec 32
  n : Bool
  z : Bool
  c : Bool
  v : Bool
  mem : BitVec 32 → BitVec 32

namespace Cpu

variable (s : Cpu)

def set (r : Reg) (v : BitVec 32) : Cpu := { s with reg := Function.update s.reg r v }

/-- A register becomes the sum of it and `n`. -/
def bump (r : Reg) (n : BitVec 32) : Cpu := s.set r (s.reg r + n)

def store (addr v : BitVec 32) : Cpu := { s with mem := Function.update s.mem addr v }

/-- The flags behind a result: `c` is the carry, and `v` the overflow. -/
def setFlags (r : BitVec 32) (c v : Bool) : Cpu :=
  { s with n := r.msb, z := r == 0#32, c := c, v := v }

end Cpu

/-- The condition of an instruction. -/
def Cond.holds (s : Cpu) : Cond → Bool
  | .al => true
  | .eq => s.z
  | .ne => !s.z
  | .cs => s.c
  | .cc => !s.c
  | .mi => s.n
  | .pl => !s.n
  | .vs => s.v
  | .vc => !s.v
  | .hi => s.c && !s.z
  | .ls => !s.c || s.z
  | .ge => s.n == s.v
  | .lt => s.n != s.v
  | .gt => !s.z && s.n == s.v
  | .le => s.z || s.n != s.v

/-- The shifter: its result, and the last bit that was shifted out, or `c` if nothing was. -/
def Shift.apply (x : BitVec 32) (n : ℕ) (c : Bool) : Shift → BitVec 32 × Bool
  | .lsl => (x <<< n, if n = 0 then c else decide (n ≤ 32) && x.getLsbD (32 - n))
  | .lsr => (x >>> n, if n = 0 then c else x.getLsbD (n - 1))
  | .asr => (x.sshiftRight n, if n = 0 then c else (x.sshiftRight (n - 1)).getLsbD 0)
  | .ror => (x.rotateRight n, if n = 0 then c else (x.rotateRight n).msb)

/-- The value of an operand, and the carry of the shifter.  A constant with more than 8 bits is made
by the shifter too. -/
def Operand.value (s : Cpu) : Operand → BitVec 32 × Bool
  | .imm v => (v, if v.toNat < 256 then s.c else v.msb)
  | .reg r => (s.reg r, s.c)
  | .shift t r n => t.apply (s.reg r) n s.c
  | .shiftReg t r rs => t.apply (s.reg r) ((s.reg rs).toNat % 256) s.c

/-- `x + y + cin`, with its carry and its overflow. -/
def addWithCarry (x y : BitVec 32) (cin : Bool) : BitVec 32 × Bool × Bool :=
  let sum := x + y + BitVec.setWidth 32 (BitVec.ofBool cin)
  (sum, decide (2 ^ 32 ≤ x.toNat + y.toNat + cin.toNat),
    x.msb == y.msb && sum.msb != x.msb)

/-- The result of an operation, its carry and its overflow.  A subtraction is the addition of the
complement, so its carry says that nothing was borrowed.  The logical operations take the carry from
the shifter and leave the overflow. -/
def Op.apply (s : Cpu) (x : BitVec 32) (o : BitVec 32 × Bool) : Op → BitVec 32 × Bool × Bool
  | .add => addWithCarry x o.1 false
  | .adc => addWithCarry x o.1 s.c
  | .sub => addWithCarry x (~~~o.1) true
  | .rsb => addWithCarry o.1 (~~~x) true
  | .and => (x &&& o.1, o.2, s.v)
  | .orr => (x ||| o.1, o.2, s.v)
  | .eor => (x ^^^ o.1, o.2, s.v)

/-- One instruction. -/
def Instr.exec (s : Cpu) : Instr → Cpu
  | .dp op flags rd rn o =>
    let r := op.apply s (s.reg rn) (o.value s)
    (if flags then s.setFlags r.1 r.2.1 r.2.2 else s).set rd r.1
  | .mov flags rd o =>
    let r := o.value s
    (if flags then s.setFlags r.1 r.2 s.v else s).set rd r.1
  | .test op rn o =>
    let r := op.apply s (s.reg rn) (o.value s)
    s.setFlags r.1 r.2.1 r.2.2
  | .mul rd rm rs => s.set rd (s.reg rm * s.reg rs)
  | .push rd n => (s.store (s.reg .sp - n) (s.reg rd)).bump .sp (-n)
  | .pop rd n => (s.set rd (s.mem (s.reg .sp))).bump .sp n
  | .stmfd rs => rs.foldr (fun r s' => (s'.store (s'.reg .sp - 4#32) (s.reg r)).bump .sp (-4#32)) s
  | .ldmfd rs => rs.foldl (fun s r => (s.set r (s.mem (s.reg .sp))).bump .sp 4#32) s
  | .bl ret => s.set .lr ret

/-- The labels of the routines.  Labels that are numbers may be defined several times, and
`num k i` is the `i`-th definition of `k` in a routine. -/
inductive Label where
  | loop1 | bignum | loop3 | gotResult | div0
  | num (k i : ℕ)
  deriving DecidableEq, Repr

/-- The processor, as what executes routines. -/
def cpu : Asm Cond Instr Cpu := ⟨fun c s => c.holds s, fun i s => i.exec s⟩

/-- The text of a routine. -/
abbrev Code := List (Line Label Cond Instr)

end Ucore.Arm
