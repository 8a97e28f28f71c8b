import Ucore.Str.Defs
import Ucore.Vmm.Defs

/-!
# Formatted output

`lib/printfmt.c`, and `vcprintf` of `lib/stdio.c`.  A format is a string, read from a position on;
reading in front of it or behind its `NUL` stops with `Fault.memory`.  Characters are handed to
`putch` one at a time, and `σ` is what `putdat` points to.  The arguments are a list of values with
their types, and `va_arg` stops if the next one does not have the type that it asks for.  `int`,
`long` and pointers have 32 bits.

The formatter computes with widths and precisions that a format may make as large as it likes, and
C does not say what `int` arithmetic gives when it overflows.  Neither does this model: `cInt` is
the exact result where it is an `int`, and otherwise whatever the class `Overflow` provides.  It is
taken of the whole right-hand side of an assignment, as in `precision = precision * 10 + ch - '0'`.
Everything below is defined over an arbitrary instance of it, so what is proved about the formatter
holds for arithmetic that wraps, for arithmetic that saturates, and for what an optimising compiler
makes of a loop whose counter it takes not to overflow.
-/

set_option autoImplicit false

namespace Ucore

/-- What arithmetic on `int` gives where the exact result is no `int`: C leaves it open. -/
class Overflow where
  result : ℤ → BitVec 32

/-- The result of an operation on `int`. -/
def cInt [Overflow] (x : ℤ) : ℤ :=
  if -2 ^ 31 ≤ x ∧ x < 2 ^ 31 then x else (Overflow.result x).toInt

/-- Arithmetic modulo `2 ^ 32`. -/
@[reducible] def Overflow.wrapping : Overflow := ⟨BitVec.ofInt 32⟩

variable [Overflow]

/-- An argument: an integer of 32 or 64 bits, a string, which may be `NULL`, or a pointer. -/
inductive Arg where
  | int (v : BitVec 32)
  | llong (v : BitVec 64)
  | str (s : Option (List ℕ))
  | ptr (p : BitVec 32)
  deriving DecidableEq, Repr

/-- `va_arg(ap, int)`, and the same for `unsigned`, `long` and `unsigned long`. -/
def vaInt : List Arg → Res (BitVec 32 × List Arg)
  | .int v :: ap => .ok (v, ap)
  | _ => .error .memory

/-- `va_arg(ap, long long)`. -/
def vaLlong : List Arg → Res (BitVec 64 × List Arg)
  | .llong v :: ap => .ok (v, ap)
  | _ => .error .memory

/-- `va_arg(ap, char *)`. -/
def vaStr : List Arg → Res (Option (List ℕ) × List Arg)
  | .str s :: ap => .ok (s, ap)
  | _ => .error .memory

/-- `va_arg(ap, void *)`. -/
def vaPtr : List Arg → Res (BitVec 32 × List Arg)
  | .ptr p :: ap => .ok (p, ap)
  | _ => .error .memory

/-- `getuint`. -/
def getuint (lflag : ℤ) (ap : List Arg) : Res (ℕ × List Arg) :=
  if lflag ≥ 2 then do
    let (v, ap) ← vaLlong ap
    return (v.toNat, ap)
  else do
    let (v, ap) ← vaInt ap
    return (v.toNat, ap)

/-- `getint`. -/
def getint (lflag : ℤ) (ap : List Arg) : Res (ℤ × List Arg) :=
  if lflag ≥ 2 then do
    let (v, ap) ← vaLlong ap
    return (v.toInt, ap)
  else do
    let (v, ap) ← vaInt ap
    return (v.toInt, ap)

/-! ## Scanning an escape sequence -/

/-- The byte at a position of a format, or its `NUL`. -/
def fetch (fmt : List ℕ) (i : ℕ) : Res ℕ :=
  if i ≤ fmt.length then .ok (charAt fmt i) else .error .memory

/-- The variables that an escape sequence sets. -/
structure Escape where
  padc : ℤ
  width : ℤ
  precision : ℤ
  lflag : ℤ
  altflag : Bool
  deriving DecidableEq, Repr

/-- Their values at the `%`. -/
def Escape.init : Escape := ⟨32, -1, -1, 0, false⟩

/-- `process_precision`. -/
def Escape.processPrecision (e : Escape) (precision : ℤ) : Escape :=
  if e.width < 0 then { e with width := precision, precision := -1 }
  else { e with precision := precision }

/-- The loop of the case `'1' ... '9'`. -/
def readWidth (fmt : List ℕ) : ℕ → ℤ → ℕ → ℕ → Res (ℤ × ℕ)
  | 0, _, _, _ => .error .fuel
  | fuel + 1, precision, ch, i => do
    let precision := cInt (precision * 10 + ch - 48)
    let ch ← fetch fmt i
    if ch < 48 ∨ ch > 57 then return (precision, i)
    else readWidth fmt fuel precision ch (i + 1)

/-- From `reswitch` to the character that no longer is a flag: that character, the position behind
it, the arguments that are left, and the variables. -/
def reswitch (fmt : List ℕ) : ℕ → ℕ → List Arg → Escape → Res (ℕ × ℕ × List Arg × Escape)
  | 0, _, _, _ => .error .fuel
  | fuel + 1, i, ap, e => do
    let ch ← fetch fmt i
    if ch = 45 then reswitch fmt fuel (i + 1) ap { e with padc := 45 }
    else if ch = 48 then reswitch fmt fuel (i + 1) ap { e with padc := 48 }
    else if 49 ≤ ch ∧ ch ≤ 57 then do
      let (precision, j) ← readWidth fmt (fmt.length + 1) 0 ch (i + 1)
      reswitch fmt fuel j ap (e.processPrecision precision)
    else if ch = 42 then do
      let (v, ap) ← vaInt ap
      reswitch fmt fuel (i + 1) ap (e.processPrecision v.toInt)
    else if ch = 46 then
      reswitch fmt fuel (i + 1) ap { e with width := if e.width < 0 then 0 else e.width }
    else if ch = 35 then reswitch fmt fuel (i + 1) ap { e with altflag := true }
    else if ch = 108 then reswitch fmt fuel (i + 1) ap { e with lflag := cInt (e.lflag + 1) }
    else return (ch, i + 1, ap, e)

/-- The loop of the default case, from the position `fmt` on. -/
def rewind (fmt : List ℕ) : ℕ → Res ℕ
  | 0 => .error .memory
  | i + 1 => do
    let ch ← fetch fmt i
    if ch ≠ 37 then rewind fmt i else return i + 1

/-! ## Numbers and strings -/

section Putch

variable {σ : Type} (putch : ℤ → σ → σ)

/-- `n` times the same character. -/
def putPad (padc : ℤ) : ℕ → σ → σ
  | 0, st => st
  | n + 1, st => putPad padc n (putch padc st)

/-- `"0123456789abcdef"[mod]`. -/
def digitChar (mod : ℕ) : ℕ := if mod < 10 then 48 + mod else 87 + mod

/-- `printnum`.  The loop `while (-- width > 0)` runs as many times as the first `-- width` says. -/
def printnum (padc : ℤ) (base : ℕ) : ℕ → ℕ → ℤ → σ → Res σ
  | 0, _, _, _ => .error .fuel
  | fuel + 1, num, width, st => do
    let st ←
      if num ≥ base then printnum padc base fuel (num / base) (cInt (width - 1)) st
      else .ok (putPad putch padc (cInt (width - 1)).toNat st)
    return putch (digitChar (num % base)) st

/-- A `char`, as an `int`. -/
def schar (c : ℕ) : ℤ := if c < 128 then c else (c : ℤ) - 256

/-- The loop over the characters of a string: `width` after it. -/
def putString (altflag : Bool) : List ℕ → ℤ → ℤ → σ → ℤ × σ
  | [], _, width, st => (width, st)
  | c :: p, precision, width, st =>
    if precision < 0 ∨ precision - 1 ≥ 0 then
      let ch := if altflag ∧ (schar c < 32 ∨ schar c > 126) then 63 else schar c
      let precision := if precision < 0 then precision else precision - 1
      putString altflag p precision (cInt (width - 1)) (putch ch st)
    else (width, st)

/-- `"(null)"`. -/
def nullString : List ℕ := [40, 110, 117, 108, 108, 41]

/-- The case `'s'`. -/
def printString (e : Escape) (s : Option (List ℕ)) (st : σ) : σ :=
  let p := s.getD nullString
  let len := strnlen p (e.precision % 2 ^ 32).toNat
  let pad := e.width > 0 ∧ e.padc ≠ 45
  let width := if pad then cInt (e.width - len) else e.width
  let st := if pad then putPad putch e.padc width.toNat st else st
  let width := if pad then min width 0 else width
  let (width, st) := putString putch e.altflag p e.precision width st
  putPad putch 32 width.toNat st

/-- The cases that end at `number`. -/
def printNumber (e : Escape) (base num : ℕ) (st : σ) : Res σ :=
  printnum putch e.padc base 64 num e.width st

/-- `MAXERROR`. -/
def maxError : ℕ := 6

/-- `error_string`. -/
def errorString : ℕ → Option (List ℕ)
  | 1 => some ("unspecified error".toList.map Char.toNat)
  | 2 => some ("bad process".toList.map Char.toNat)
  | 3 => some ("invalid parameter".toList.map Char.toNat)
  | 4 => some ("out of memory".toList.map Char.toNat)
  | 5 => some ("out of processes".toList.map Char.toNat)
  | 6 => some ("segmentation fault".toList.map Char.toNat)
  | _ => none

/-- `"error %d"`. -/
def errorFmt : List ℕ := "error %d".toList.map Char.toNat

/-- `"%s"`. -/
def stringFmt : List ℕ := "%s".toList.map Char.toNat

/-- The case `'e'`, where `nested` is `printfmt`. -/
def printError (nested : List ℕ → List Arg → σ → Res σ) (v : BitVec 32) (st : σ) : Res σ :=
  let err := v.toInt
  let err := if err < 0 then cInt (-err) else err
  if err > maxError then nested errorFmt [.int (BitVec.ofInt 32 err)] st
  else if err < 0 then .error .memory
  else
    match errorString err.toNat with
    | none => nested errorFmt [.int (BitVec.ofInt 32 err)] st
    | some p => nested stringFmt [.str (some p)] st

/-- The other cases of the `switch`, for the character `ch` in front of the position `i`: the next
position, the arguments that are left, and what `putch` has done. -/
def convert (nested : List ℕ → List Arg → σ → Res σ) (fmt : List ℕ) (ch i : ℕ) (ap : List Arg)
    (e : Escape) (st : σ) : Res (ℕ × List Arg × σ) :=
  match ch with
  | 99 => do
    let (v, ap) ← vaInt ap
    return (i, ap, putch v.toInt st)
  | 101 => do
    let (v, ap) ← vaInt ap
    let st ← printError nested v st
    return (i, ap, st)
  | 115 => do
    let (s, ap) ← vaStr ap
    return (i, ap, printString putch e s st)
  | 100 => do
    let (num, ap) ← getint e.lflag ap
    let st := if num < 0 then putch 45 st else st
    let st ← printNumber putch e 10 num.natAbs st
    return (i, ap, st)
  | 117 => do
    let (num, ap) ← getuint e.lflag ap
    let st ← printNumber putch e 10 num st
    return (i, ap, st)
  | 111 => do
    let (num, ap) ← getuint e.lflag ap
    let st ← printNumber putch e 8 num st
    return (i, ap, st)
  | 112 => do
    let st := putch 120 (putch 48 st)
    let (p, ap) ← vaPtr ap
    let st ← printNumber putch e 16 p.toNat st
    return (i, ap, st)
  | 120 => do
    let (num, ap) ← getuint e.lflag ap
    let st ← printNumber putch e 16 num st
    return (i, ap, st)
  | 37 => .ok (i, ap, putch 37 st)
  | _ => do
    let j ← rewind fmt (i - 1)
    return (j, ap, putch 37 st)

/-- `vprintfmt`, from the position `i` of the format on.  A round of fuel is spent on every
character that is printed as it is, and on every escape sequence. -/
def fmtLoop : ℕ → List ℕ → ℕ → List Arg → σ → Res σ
  | 0, _, _, _, _ => .error .fuel
  | fuel + 1, fmt, i, ap, st => do
    let ch ← fetch fmt i
    if ch ≠ 37 then
      if ch = 0 then return st else fmtLoop fuel fmt (i + 1) ap (putch ch st)
    else do
      let (ch, i, ap, e) ← reswitch fmt (fmt.length + 1) (i + 1) ap Escape.init
      let (i, ap, st) ← convert putch (fun fmt ap st => fmtLoop fuel fmt 0 ap st) fmt ch i ap e st
      fmtLoop fuel fmt i ap st

/-- `vprintfmt`.  There is fuel for the characters of the format and of the formats that are nested
in it. -/
def vprintfmt (fmt : List ℕ) (ap : List Arg) (st : σ) : Res σ :=
  fmtLoop putch (fmt.length + 10) fmt 0 ap st

end Putch

/-! ## Output to the console and to a buffer -/

/-- `cputch`.  The characters that `cons_putc` has got, and the count, which is incremented in
memory and wraps around. -/
def cputch (c : ℤ) (st : List ℤ × ℤ) : List ℤ × ℤ := (st.1 ++ [c], toInt32 (st.2 + 1))

/-- `vcprintf`: the characters for the console, and the result. -/
def vcprintf (fmt : List ℕ) (ap : List Arg) : Res (List ℤ × ℤ) := vprintfmt cputch fmt ap ([], 0)

/-- `struct sprintbuf`, with the memory.  The format and the strings are not in the buffer. -/
structure SprintBuf where
  mem : ℕ → BitVec 8
  buf : ℕ
  ebuf : ℕ
  cnt : ℤ

/-- `sprintputch`. -/
def sprintputch (ch : ℤ) (b : SprintBuf) : SprintBuf :=
  let b := { b with cnt := toInt32 (b.cnt + 1) }
  if b.buf < b.ebuf then
    { b with mem := Function.update b.mem b.buf (BitVec.ofInt 8 ch), buf := b.buf + 1 }
  else b

/-- `vsnprintf`: the result, and the memory. -/
def vsnprintf (mem : ℕ → BitVec 8) (str size : ℕ) (fmt : List ℕ) (ap : List Arg) :
    Res (ℤ × (ℕ → BitVec 8)) := do
  let b : SprintBuf := ⟨mem, str, (str + size + 2 ^ 32 - 1) % 2 ^ 32, 0⟩
  if str = 0 ∨ b.buf > b.ebuf then return (-eInval, mem)
  else do
    let b ← vprintfmt sprintputch fmt ap b
    return (b.cnt, Function.update b.mem b.buf 0)

end Ucore
