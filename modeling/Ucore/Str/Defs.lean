import Mathlib.Algebra.Ring.Int.Defs
import Mathlib.Algebra.Ring.Nat
import Mathlib.Logic.Function.Basic
import Ucore.Lib.Loop

/-!
# Strings and memory

The functions of `lib/string.c` that the console and the formatter use.  A string is the list of its
bytes without the final `NUL`, so no byte of it is 0, and reading behind the last byte gives 0.

`int` and `long` have 32 bits.  Where they may overflow the result is taken modulo `2 ^ 32`.
-/

set_option autoImplicit false

namespace Ucore

/-- A result of arithmetic, as an `int`. -/
def toInt32 (x : ℤ) : ℤ := (x + 2 ^ 31) % 2 ^ 32 - 2 ^ 31

/-- The byte at the position `i` of a string. -/
def charAt (s : List ℕ) (i : ℕ) : ℕ := s.getD i 0

/-! ## Memory -/

section Memmove

variable {α : Type}

/-- `while (n -- > 0) *d ++ = *s ++`. -/
def copyUp (mem : ℕ → α) (d s : ℕ) : ℕ → ℕ → α
  | 0 => mem
  | n + 1 => copyUp (Function.update mem d (mem s)) (d + 1) (s + 1) n

/-- `while (n -- > 0) *-- d = *-- s`, from the ends on. -/
def copyDown (mem : ℕ → α) (d s : ℕ) : ℕ → ℕ → α
  | 0 => mem
  | n + 1 => copyDown (Function.update mem (d + n) (mem (s + n))) d s n

/-- `memmove`. -/
def memmove (mem : ℕ → α) (dst src n : ℕ) : ℕ → α :=
  if src < dst ∧ src + n > dst then copyDown mem dst src n else copyUp mem dst src n

end Memmove

/-! ## Strings -/

/-- `strnlen`. -/
def strnlen : List ℕ → ℕ → ℕ
  | [], _ => 0
  | _ :: _, 0 => 0
  | _ :: s, len + 1 => strnlen s len + 1

/-- `while (*s == ' ' || *s == '\t')`. -/
def skipBlanks : List ℕ → List ℕ
  | [] => []
  | c :: s => if c = 32 ∨ c = 9 then skipBlanks s else c :: s

/-- The optional sign: `neg`, and the rest. -/
def skipSign : List ℕ → Bool × List ℕ
  | [] => (false, [])
  | c :: s => if c = 43 then (false, s) else if c = 45 then (true, s) else (false, c :: s)

/-- The lines under "hex or octal base prefix". -/
def basePrefix (base : ℕ) (s : List ℕ) : ℕ × List ℕ :=
  if (base = 0 ∨ base = 16) ∧ charAt s 0 = 48 ∧ charAt s 1 = 120 then (16, s.drop 2)
  else if base = 0 ∧ charAt s 0 = 48 then (8, s.drop 1)
  else if base = 0 then (10, s)
  else (base, s)

/-- `dig`, if there is one. -/
def strtolDigit (c : ℕ) : Option ℕ :=
  if 48 ≤ c ∧ c ≤ 57 then some (c - 48)
  else if 97 ≤ c ∧ c ≤ 122 then some (c - 97 + 10)
  else if 65 ≤ c ∧ c ≤ 90 then some (c - 65 + 10)
  else none

/-- The loop over the digits: `val`, and the rest. -/
def strtolDigits (base : ℕ) : ℤ → List ℕ → ℤ × List ℕ
  | val, [] => (val, [])
  | val, c :: s =>
    match strtolDigit c with
    | none => (val, c :: s)
    | some dig =>
      if dig ≥ base then (val, c :: s) else strtolDigits base (toInt32 (val * base + dig)) s

/-- `strtol`: the value, and how far `*endptr` is from the beginning of the string. -/
def strtol (s : List ℕ) (base : ℕ) : ℤ × ℕ :=
  let (neg, rest) := skipSign (skipBlanks s)
  let (base, rest) := basePrefix base rest
  let (val, rest) := strtolDigits base 0 rest
  (if neg then toInt32 (-val) else val, s.length - rest.length)

end Ucore
