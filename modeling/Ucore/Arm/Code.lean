import Ucore.Arm.Defs

/-!
# The division routines

The files `_udivsi3.S`, `_umodsi3.S`, `_divsi3.S`, `_modsi3.S` and `div64.S` of `arch/arm/lib`, line
for line.  The processor has no `clz`, so these are the branches for the architectures before the
fifth.  `div0` is the text of the C function `__div0`, and `ret` is the address behind a `bl`.

A macro with registers as arguments, such as `ARM_DIV_BODY`, is a function of these registers here
(`armDivBody`), and a routine is a list of lines with labels, numeric ones included: of a label such
as `1:` that occurs more than once, `.num 1 i` is the `i`-th occurrence, and `1b` and `1f` name the
one that is meant.  The routines that call others, `__aeabi_uidivmod` and `__aeabi_idivmod`, are
`divmod` with the text of the routine that they call.
-/

set_option autoImplicit false

namespace Ucore.Arm

open Line Instr Operand

section

variable (div0 : Code) (ret : BitVec 32)

/-- `__udivsi3`, which is also `__aeabi_uidiv`. -/
def udivsi3 : Code := [
  op .al (cmp .r1 (imm 0)),
  branch .eq .div0,
  op .al (mov false .r3 (imm 1)),
  op .al (mov false .r2 (imm 0)),
  op .al (cmp .r0 (reg .r1)),
  branch .cc .gotResult,
  label .loop1,
  op .al (cmp .r1 (imm 0x10000000)),
  op .cc (cmp .r1 (reg .r0)),
  op .cc (mov false .r1 (shift .lsl .r1 4)),
  op .cc (mov false .r3 (shift .lsl .r3 4)),
  branch .cc .loop1,
  label .bignum,
  op .al (cmp .r1 (imm 0x80000000)),
  op .cc (cmp .r1 (reg .r0)),
  op .cc (mov false .r1 (shift .lsl .r1 1)),
  op .cc (mov false .r3 (shift .lsl .r3 1)),
  branch .cc .bignum,
  label .loop3,
  op .al (cmp .r0 (reg .r1)),
  op .cs (sub .r0 .r0 (reg .r1)),
  op .cs (orr .r2 .r2 (reg .r3)),
  op .al (cmp .r0 (shift .lsr .r1 1)),
  op .cs (sub .r0 .r0 (shift .lsr .r1 1)),
  op .cs (orr .r2 .r2 (shift .lsr .r3 1)),
  op .al (cmp .r0 (shift .lsr .r1 2)),
  op .cs (sub .r0 .r0 (shift .lsr .r1 2)),
  op .cs (orr .r2 .r2 (shift .lsr .r3 2)),
  op .al (cmp .r0 (shift .lsr .r1 3)),
  op .cs (sub .r0 .r0 (shift .lsr .r1 3)),
  op .cs (orr .r2 .r2 (shift .lsr .r3 3)),
  op .al (cmp .r0 (imm 0)),
  op .ne (mov true .r3 (shift .lsr .r3 4)),
  op .ne (mov false .r1 (shift .lsr .r1 4)),
  branch .ne .loop3,
  label .gotResult,
  op .al (mov false .r0 (reg .r2)),
  Line.ret .al (mov false .pc (reg .lr)),
  label .div0,
  op .al (push .lr 4),
  call (bl ret) div0,
  op .al (mov false .r0 (imm 0)),
  Line.ret .al (ldmfd [.pc])]

/-- `__umodsi3` -/
def umodsi3 : Code := [
  op .al (cmp .r1 (imm 0)),
  branch .eq .div0,
  op .al (mov false .r3 (imm 1)),
  op .al (cmp .r0 (reg .r1)),
  Line.ret .cc (mov false .pc (reg .lr)),
  label .loop1,
  op .al (cmp .r1 (imm 0x10000000)),
  op .cc (cmp .r1 (reg .r0)),
  op .cc (mov false .r1 (shift .lsl .r1 4)),
  op .cc (mov false .r3 (shift .lsl .r3 4)),
  branch .cc .loop1,
  label .bignum,
  op .al (cmp .r1 (imm 0x80000000)),
  op .cc (cmp .r1 (reg .r0)),
  op .cc (mov false .r1 (shift .lsl .r1 1)),
  op .cc (mov false .r3 (shift .lsl .r3 1)),
  branch .cc .bignum,
  label .loop3,
  op .al (mov false .r2 (imm 0)),
  op .al (cmp .r0 (reg .r1)),
  op .cs (sub .r0 .r0 (reg .r1)),
  op .al (cmp .r0 (shift .lsr .r1 1)),
  op .cs (sub .r0 .r0 (shift .lsr .r1 1)),
  op .cs (orr .r2 .r2 (shift .ror .r3 1)),
  op .al (cmp .r0 (shift .lsr .r1 2)),
  op .cs (sub .r0 .r0 (shift .lsr .r1 2)),
  op .cs (orr .r2 .r2 (shift .ror .r3 2)),
  op .al (cmp .r0 (shift .lsr .r1 3)),
  op .cs (sub .r0 .r0 (shift .lsr .r1 3)),
  op .cs (orr .r2 .r2 (shift .ror .r3 3)),
  op .al (mov false .ip (reg .r3)),
  op .al (cmp .r0 (imm 0)),
  op .ne (mov true .r3 (shift .lsr .r3 4)),
  op .ne (mov false .r1 (shift .lsr .r1 4)),
  branch .ne .loop3,
  op .al (ands .r2 .r2 (imm 0xe0000000)),
  Line.ret .eq (mov false .pc (reg .lr)),
  op .al (tst .r2 (shift .ror .ip 3)),
  op .ne (add .r0 .r0 (shift .lsr .r1 3)),
  op .al (tst .r2 (shift .ror .ip 2)),
  op .ne (add .r0 .r0 (shift .lsr .r1 2)),
  op .al (tst .r2 (shift .ror .ip 1)),
  op .ne (add .r0 .r0 (shift .lsr .r1 1)),
  Line.ret .al (mov false .pc (reg .lr)),
  label .div0,
  op .al (push .lr 4),
  call (bl ret) div0,
  op .al (mov false .r0 (imm 0)),
  Line.ret .al (ldmfd [.pc])]

/-- The macro `ARM_DIV_BODY`, whose labels are the first three `1:` of its routine. -/
def armDivBody (dividend divisor result curbit : Reg) : Code := [
  op .al (tst divisor (imm 0xe0000000)),
  op .eq (mov false divisor (shift .lsl divisor 3)),
  op .eq (mov false curbit (imm 8)),
  op .ne (mov false curbit (imm 1)),
  label (.num 1 1),
  op .al (cmp divisor (imm 0x10000000)),
  op .cc (cmp divisor (reg dividend)),
  op .cc (mov false divisor (shift .lsl divisor 4)),
  op .cc (mov false curbit (shift .lsl curbit 4)),
  branch .cc (.num 1 1),
  label (.num 1 2),
  op .al (cmp divisor (imm 0x80000000)),
  op .cc (cmp divisor (reg dividend)),
  op .cc (mov false divisor (shift .lsl divisor 1)),
  op .cc (mov false curbit (shift .lsl curbit 1)),
  branch .cc (.num 1 2),
  op .al (mov false result (imm 0)),
  label (.num 1 3),
  op .al (cmp dividend (reg divisor)),
  op .cs (sub dividend dividend (reg divisor)),
  op .cs (orr result result (reg curbit)),
  op .al (cmp dividend (shift .lsr divisor 1)),
  op .cs (sub dividend dividend (shift .lsr divisor 1)),
  op .cs (orr result result (shift .lsr curbit 1)),
  op .al (cmp dividend (shift .lsr divisor 2)),
  op .cs (sub dividend dividend (shift .lsr divisor 2)),
  op .cs (orr result result (shift .lsr curbit 2)),
  op .al (cmp dividend (shift .lsr divisor 3)),
  op .cs (sub dividend dividend (shift .lsr divisor 3)),
  op .cs (orr result result (shift .lsr curbit 3)),
  op .al (cmp dividend (imm 0)),
  op .ne (mov true curbit (shift .lsr curbit 4)),
  op .ne (mov false divisor (shift .lsr divisor 4)),
  branch .ne (.num 1 3)]

/-- The macro `ARM_DIV2_ORDER`. -/
def armDiv2Order (divisor order : Reg) : Code := [
  op .al (cmp divisor (imm (1#32 <<< 16))),
  op .cs (mov false divisor (shift .lsr divisor 16)),
  op .cs (mov false order (imm 16)),
  op .cc (mov false order (imm 0)),
  op .al (cmp divisor (imm (1#32 <<< 8))),
  op .cs (mov false divisor (shift .lsr divisor 8)),
  op .cs (add order order (imm 8)),
  op .al (cmp divisor (imm (1#32 <<< 4))),
  op .cs (mov false divisor (shift .lsr divisor 4)),
  op .cs (add order order (imm 4)),
  op .al (cmp divisor (imm (1#32 <<< 2))),
  op .hi (add order order (imm 3)),
  op .ls (add order order (shift .lsr divisor 1))]

/-- `__divsi3`, which is also `__aeabi_idiv`. -/
def divsi3 : Code := [
  op .al (cmp .r1 (imm 0)),
  op .al (eor .ip .r0 (reg .r1)),
  branch .eq .div0,
  op .mi (rsb .r1 .r1 (imm 0)),
  op .al (subs .r2 .r1 (imm 1)),
  branch .eq (.num 10 1),
  op .al (mov true .r3 (reg .r0)),
  op .mi (rsb .r3 .r0 (imm 0)),
  op .al (cmp .r3 (reg .r1)),
  branch .ls (.num 11 1),
  op .al (tst .r1 (reg .r2)),
  branch .eq (.num 12 1)] ++
  armDivBody .r3 .r1 .r0 .r2 ++ [
  op .al (cmp .ip (imm 0)),
  op .mi (rsb .r0 .r0 (imm 0)),
  Line.ret .al (mov false .pc (reg .lr)),
  label (.num 10 1),
  op .al (teq .ip (reg .r0)),
  op .mi (rsb .r0 .r0 (imm 0)),
  Line.ret .al (mov false .pc (reg .lr)),
  label (.num 11 1),
  op .cc (mov false .r0 (imm 0)),
  op .eq (mov false .r0 (shift .asr .ip 31)),
  op .eq (orr .r0 .r0 (imm 1)),
  Line.ret .al (mov false .pc (reg .lr)),
  label (.num 12 1)] ++
  armDiv2Order .r1 .r2 ++ [
  op .al (cmp .ip (imm 0)),
  op .al (mov false .r0 (shiftReg .lsr .r3 .r2)),
  op .mi (rsb .r0 .r0 (imm 0)),
  Line.ret .al (mov false .pc (reg .lr)),
  label .div0,
  op .al (push .lr 4),
  call (bl ret) div0,
  op .al (mov false .r0 (imm 0)),
  Line.ret .al (pop .pc 4)]

/-- The macro `ARM_MOD_BODY`. -/
def armModBody (dividend divisor order : Reg) : Code := [
  op .al (mov false order (imm 0)),
  label (.num 1 1),
  op .al (cmp divisor (imm 0x10000000)),
  op .cc (cmp divisor (reg dividend)),
  op .cc (mov false divisor (shift .lsl divisor 4)),
  op .cc (add order order (imm 4)),
  branch .cc (.num 1 1),
  label (.num 1 2),
  op .al (cmp divisor (imm 0x80000000)),
  op .cc (cmp divisor (reg dividend)),
  op .cc (mov false divisor (shift .lsl divisor 1)),
  op .cc (add order order (imm 1)),
  branch .cc (.num 1 2),
  op .al (subs order order (imm 3)),
  branch .lt (.num 2 1),
  label (.num 1 3),
  op .al (cmp dividend (reg divisor)),
  op .cs (sub dividend dividend (reg divisor)),
  op .al (cmp dividend (shift .lsr divisor 1)),
  op .cs (sub dividend dividend (shift .lsr divisor 1)),
  op .al (cmp dividend (shift .lsr divisor 2)),
  op .cs (sub dividend dividend (shift .lsr divisor 2)),
  op .al (cmp dividend (shift .lsr divisor 3)),
  op .cs (sub dividend dividend (shift .lsr divisor 3)),
  op .al (cmp dividend (imm 1)),
  op .al (mov false divisor (shift .lsr divisor 4)),
  op .ge (subs order order (imm 4)),
  branch .ge (.num 1 3),
  op .al (tst order (imm 3)),
  op .ne (teq dividend (imm 0)),
  branch .eq (.num 5 1),
  label (.num 2 1),
  op .al (cmn order (imm 2)),
  branch .lt (.num 4 1),
  branch .eq (.num 3 1),
  op .al (cmp dividend (reg divisor)),
  op .cs (sub dividend dividend (reg divisor)),
  op .al (mov false divisor (shift .lsr divisor 1)),
  label (.num 3 1),
  op .al (cmp dividend (reg divisor)),
  op .cs (sub dividend dividend (reg divisor)),
  op .al (mov false divisor (shift .lsr divisor 1)),
  label (.num 4 1),
  op .al (cmp dividend (reg divisor)),
  op .cs (sub dividend dividend (reg divisor)),
  label (.num 5 1)]

/-- `__modsi3` -/
def modsi3 : Code := [
  op .al (cmp .r1 (imm 0)),
  branch .eq .div0,
  op .mi (rsb .r1 .r1 (imm 0)),
  op .al (mov true .ip (reg .r0)),
  op .mi (rsb .r0 .r0 (imm 0)),
  op .al (subs .r2 .r1 (imm 1)),
  op .ne (cmp .r0 (reg .r1)),
  op .eq (mov false .r0 (imm 0)),
  op .hi (tst .r1 (reg .r2)),
  op .eq (and .r0 .r0 (reg .r2)),
  branch .ls (.num 10 1)] ++
  armModBody .r0 .r1 .r2 ++ [
  label (.num 10 1),
  op .al (cmp .ip (imm 0)),
  op .mi (rsb .r0 .r0 (imm 0)),
  Line.ret .al (mov false .pc (reg .lr)),
  label .div0,
  op .al (push .lr 4),
  call (bl ret) div0,
  op .al (mov false .r0 (imm 0)),
  Line.ret .al (pop .pc 4)]

/-- `__aeabi_uidivmod` and `__aeabi_idivmod`, which differ in the routine `div` they call. -/
def divmod (div : Code) : Code := [
  op .al (stmfd [.r0, .r1, .ip, .lr]),
  call (bl ret) div,
  op .al (ldmfd [.r1, .r2, .ip, .lr]),
  op .al (mul .r3 .r0 .r2),
  op .al (sub .r1 .r1 (reg .r3)),
  Line.ret .al (mov false .pc (reg .lr))]

end

def aeabiUidivmod (div0 : Code) (ret ret' : BitVec 32) : Code := divmod ret' (udivsi3 div0 ret)

def aeabiIdivmod (div0 : Code) (ret ret' : BitVec 32) : Code := divmod ret' (divsi3 div0 ret)

/-- `__do_div64`.  The dividend is `r1:r0`, and the divisor is in `r4`. -/
def doDiv64 : Code := [
  op .al (subs .ip .r4 (imm 1)),
  branch .ls (.num 9 1),
  op .al (tst .ip (reg .r4)),
  branch .eq (.num 8 1),
  op .al (cmp .r1 (reg .r4)),
  op .al (mov false .r3 (imm 0)),
  branch .cc (.num 3 1),
  op .al (mov false .r2 (reg .r4)),
  op .al (mov false .ip (imm 1)),
  label (.num 1 1),
  op .al (cmp .r2 (imm 0x80000000)),
  op .cc (cmp .r2 (reg .r1)),
  op .cc (mov false .r2 (shift .lsl .r2 1)),
  op .cc (mov false .ip (shift .lsl .ip 1)),
  branch .cc (.num 1 1),
  label (.num 2 1),
  op .al (cmp .r1 (reg .r2)),
  op .cs (orr .r3 .r3 (reg .ip)),
  op .cs (subs .r1 .r1 (reg .r2)),
  op .ne (mov true .ip (shift .lsr .ip 1)),
  op .al (mov false .r2 (shift .lsr .r2 1)),
  branch .ne (.num 2 1),
  label (.num 3 1),
  op .al (cmp .r1 (imm 0)),
  op .al (mov false .r2 (imm 0)),
  op .eq (cmp .r0 (reg .r4)),
  op .cc (mov false .r1 (reg .r0)),
  Line.ret .cc (mov false .pc (reg .lr)),
  op .al (mov false .ip (imm 0x80000000)),
  label (.num 4 1),
  op .al (mov true .r0 (shift .lsl .r0 1)),
  op .al (adcs .r1 .r1 (reg .r1)),
  branch .eq (.num 6 1),
  op .cc (cmp .r1 (reg .r4)),
  label (.num 5 1),
  op .cs (orr .r2 .r2 (reg .ip)),
  op .cs (sub .r1 .r1 (reg .r4)),
  op .al (mov true .ip (shift .lsr .ip 1)),
  branch .ne (.num 4 1),
  Line.ret .al (mov false .pc (reg .lr)),
  label (.num 6 1),
  branch .cs (.num 5 1),
  op .al (cmp .r0 (imm 0)),
  Line.ret .eq (mov false .pc (reg .lr)),
  label (.num 7 1),
  op .al (mov true .r0 (shift .lsl .r0 1)),
  op .al (mov false .ip (shift .lsr .ip 1)),
  branch .cc (.num 7 1),
  op .al (mov true .ip (shift .lsr .ip 1)),
  op .al (mov false .r1 (imm 1)),
  branch .ne (.num 4 1),
  Line.ret .al (mov false .pc (reg .lr)),
  label (.num 8 1),
  op .al (mov false .r2 (reg .r4)),
  op .al (cmp .r4 (imm (1#32 <<< 16))),
  op .al (mov false .ip (imm 0)),
  op .cs (mov false .r2 (shift .lsr .r2 16)),
  op .cs (mov false .ip (imm 16)),
  op .al (cmp .r2 (imm (1#32 <<< 8))),
  op .cs (mov false .r2 (shift .lsr .r2 8)),
  op .cs (add .ip .ip (imm 8)),
  op .al (cmp .r2 (imm (1#32 <<< 4))),
  op .cs (mov false .r2 (shift .lsr .r2 4)),
  op .cs (add .ip .ip (imm 4)),
  op .al (cmp .r2 (imm (1#32 <<< 2))),
  op .hi (add .ip .ip (imm 3)),
  op .ls (add .ip .ip (shift .lsr .r2 1)),
  op .al (mov false .r3 (shiftReg .lsr .r1 .ip)),
  op .al (mov false .r2 (shiftReg .lsr .r0 .ip)),
  op .al (rsb .ip .ip (imm 32)),
  op .al (orr .r2 .r2 (shiftReg .lsl .r1 .ip)),
  op .al (mov false .r1 (shiftReg .lsl .r0 .ip)),
  op .al (mov false .r1 (shiftReg .lsr .r1 .ip)),
  Line.ret .al (mov false .pc (reg .lr)),
  label (.num 9 1),
  op .eq (mov false .r2 (reg .r0)),
  op .eq (mov false .r3 (reg .r1)),
  op .eq (mov false .r1 (imm 0)),
  Line.ret .eq (mov false .pc (reg .lr)),
  op .al (push .lr 8),
  op .al (mov false .r2 (imm 0)),
  op .al (mov false .r3 (imm 0)),
  op .al (mov false .r1 (imm 0)),
  Line.ret .al (pop .pc 8)]

end Ucore.Arm
