import Mathlib.Data.Nat.Digits.Lemmas
import Mathlib.Tactic.Ring
import Ucore.Fmt.Output

/-!
# Printing numbers

`printnum` prints the digits of a number, and pads them on the left (`printnum_eq`).  It works on
the number from the last digit on, by calling itself for the others first, and takes one off the
width for each digit; the padding is done by the innermost call, which prints the first digit.

* `digitsOf` are the digits, from the first one on, and `valueOf` is the number that digits stand
  for (`valueOf_digitsOf`).  `numeral` are their characters.
* `decWidth n width` is `n` times `-- width`, on an `int`.  Below the smallest `int` the result is
  whatever `Overflow` provides, so nothing is said about it.
* `padding` is how many characters are printed in front of the digits.  For a width that is an `int`
  it is the width less the number of digits, if that is not negative.
-/

set_option autoImplicit false

namespace Ucore

/-! ## Arithmetic in 32 bits -/

theorem toInt32_eq {x : ℤ} (h : -2 ^ 31 ≤ x) (h' : x < 2 ^ 31) : toInt32 x = x := by
  simp only [toInt32]
  omega

theorem toInt32_mul_add (x b d : ℤ) : toInt32 (toInt32 x * b + d) = toInt32 (x * b + d) := by
  have hx : toInt32 x = x + 2 ^ 32 * -((x + 2 ^ 31) / 2 ^ 32) := by
    rw [toInt32]
    omega
  rw [hx, toInt32, toInt32]
  congr 1
  have hexp : (x + 2 ^ 32 * -((x + 2 ^ 31) / 2 ^ 32)) * b + d + 2 ^ 31 =
      x * b + d + 2 ^ 31 + 2 ^ 32 * (-((x + 2 ^ 31) / 2 ^ 32) * b) := by ring
  rw [hexp, Int.add_mul_emod_self_left]

section Overflow

variable [Overflow]

theorem cInt_eq {x : ℤ} (h : -2 ^ 31 ≤ x) (h' : x < 2 ^ 31) : cInt x = x := if_pos ⟨h, h'⟩

/-- `n` times `-- width`. -/
def decWidth : ℕ → ℤ → ℤ
  | 0, width => width
  | n + 1, width => decWidth n (cInt (width - 1))

theorem decWidth_eq {n : ℕ} {width : ℤ} (h : -2 ^ 31 ≤ width - n) (h' : width < 2 ^ 31) :
    decWidth n width = width - n := by
  induction n generalizing width with
  | zero => exact (Int.sub_zero width).symm
  | succ n ih =>
    push_cast at h ⊢
    rw [decWidth, cInt_eq (by omega) (by omega), ih (by omega) (by omega)]
    omega

end Overflow

/-- The value of a list of digits, from the most significant one on. -/
def valueOf (base : ℕ) (x : ℤ) (ds : List ℕ) : ℤ :=
  ds.foldl (fun (a : ℤ) (d : ℕ) => a * base + d) x

theorem le_valueOf {base : ℕ} (hbase : 1 ≤ base) {x : ℤ} (hx : 0 ≤ x) (ds : List ℕ) :
    x ≤ valueOf base x ds := by
  induction ds generalizing x with
  | nil => exact Int.le_refl x
  | cons d ds ih =>
    have hstep : x ≤ x * base + d := by nlinarith
    exact hstep.trans (ih (hx.trans hstep))

/-! ## Digits -/

/-- The digits of a number, from the most significant one on, and at least one. -/
def digitsOf (base num : ℕ) : List ℕ := (Nat.digits base (num / base)).reverse ++ [num % base]

/-- The characters for the digits of a number. -/
def numeral (base num : ℕ) : List ℤ := (digitsOf base num).map fun d => (digitChar d : ℤ)

theorem digitsOf_lt {base num : ℕ} (h : num < base) : digitsOf base num = [num] := by
  rw [digitsOf, Nat.div_eq_of_lt h, Nat.digits_zero, Nat.mod_eq_of_lt h]
  rfl

theorem digitsOf_ge {base num : ℕ} (hbase : 1 < base) (h : base ≤ num) :
    digitsOf base num = digitsOf base (num / base) ++ [num % base] := by
  have hpos : 0 < num / base := Nat.div_pos h (by omega)
  rw [digitsOf, Nat.digits_def' hbase hpos, List.reverse_cons, digitsOf]

/-- The digits stand for the number. -/
theorem valueOf_digitsOf {base : ℕ} (hbase : 1 < base) (num : ℕ) :
    valueOf base 0 (digitsOf base num) = num := by
  induction num using Nat.strong_induction_on with
  | _ num ih =>
    by_cases hge : base ≤ num
    · have hdiv := ih (num / base) (Nat.div_lt_self (by omega) hbase)
      have hmod : ((num / base : ℕ) : ℤ) * base + (num % base : ℕ) = num := by
        exact_mod_cast Nat.div_add_mod' num base
      rw [digitsOf_ge hbase hge, valueOf, List.foldl_append]
      rw [valueOf] at hdiv
      rw [hdiv]
      exact hmod
    · rw [digitsOf_lt (by omega)]
      simp [valueOf]

theorem lt_of_mem_digitsOf {base : ℕ} (hbase : 1 < base) (num : ℕ) :
    ∀ d ∈ digitsOf base num, d < base := by
  intro d hd
  rcases List.mem_append.1 hd with hd | hd
  · exact Nat.digits_lt_base hbase (List.mem_reverse.1 hd)
  · rw [List.mem_singleton.1 hd]
    exact Nat.mod_lt _ (by omega)

/-- The first digit of a number that is not 0 is not 0. -/
theorem digitsOf_eq_cons {base : ℕ} (hbase : 1 < base) {num : ℕ} (hpos : 0 < num) :
    ∃ d ds, digitsOf base num = d :: ds ∧ 0 < d := by
  induction num using Nat.strong_induction_on with
  | _ num ih =>
    by_cases hge : base ≤ num
    · obtain ⟨d, ds, hds, hd⟩ := ih (num / base) (Nat.div_lt_self hpos hbase)
        (Nat.div_pos hge (by omega))
      exact ⟨d, ds ++ [num % base], by rw [digitsOf_ge hbase hge, hds]; rfl, hd⟩
    · exact ⟨num, [], digitsOf_lt (by omega), hpos⟩

theorem length_digitsOf_le {base : ℕ} (hbase : 1 < base) (k : ℕ) {num : ℕ}
    (h : num < base ^ (k + 1)) : (digitsOf base num).length ≤ k + 1 := by
  rw [digitsOf, List.length_append, List.length_reverse, List.length_singleton]
  refine Nat.succ_le_succ ((Nat.digits_length_le_iff hbase _).2 ?_)
  rw [Nat.div_lt_iff_lt_mul (by omega), ← Nat.pow_succ]
  exact h

@[simp] theorem length_numeral (base num : ℕ) :
    (numeral base num).length = (digitsOf base num).length := List.length_map _

section Putch

variable [Overflow] {σ : Type} (putch : ℤ → σ → σ)

/-- The padding in front of the digits of a number. -/
def padding (base num : ℕ) (width : ℤ) : ℕ := (decWidth (digitsOf base num).length width).toNat

theorem padding_eq {base num : ℕ} {width : ℤ}
    (h : -2 ^ 31 ≤ width - (digitsOf base num).length) (h' : width < 2 ^ 31) :
    padding base num width = (width - (digitsOf base num).length).toNat := by
  rw [padding, decWidth_eq h h']

/-- A single digit, with all of the padding. -/
theorem printnum_lt (padc : ℤ) {base num : ℕ} (h : num < base) (fuel : ℕ) (width : ℤ) (st : σ) :
    printnum putch padc base (fuel + 1) num width st = .ok (emit putch
      (List.replicate (padding base num width) padc ++ numeral base num) st) := by
  rw [printnum, if_neg (by omega), putPad_eq, numeral, padding, digitsOf_lt h, emit_append,
    Nat.mod_eq_of_lt h]
  rfl

/-- **`printnum` prints the digits**, and pads them if they are fewer than `width`. -/
theorem printnum_eq (padc : ℤ) {base : ℕ} (hbase : 1 < base) (fuel num : ℕ) (width : ℤ) (st : σ)
    (hfuel : num < base ^ (fuel + 1)) :
    printnum putch padc base (fuel + 1) num width st = .ok (emit putch
      (List.replicate (padding base num width) padc ++ numeral base num) st) := by
  induction fuel generalizing num width with
  | zero => exact printnum_lt putch padc (by simpa using hfuel) 0 width st
  | succ fuel ih =>
    by_cases hge : num ≥ base
    · have hdiv : num / base < base ^ (fuel + 1) := by
        rw [Nat.div_lt_iff_lt_mul (by omega), ← Nat.pow_succ]
        exact hfuel
      have hpad : padding base (num / base) (cInt (width - 1)) = padding base num width := by
        rw [padding, padding, digitsOf_ge hbase hge, List.length_append, List.length_singleton,
          decWidth]
      rw [printnum, if_pos hge, ih _ _ hdiv, hpad, numeral, numeral, digitsOf_ge hbase hge,
        List.map_append, ← List.append_assoc, emit_append putch (_ ++ _)]
      rfl
    · exact printnum_lt putch padc (by omega) _ width st

/-- A number of at most 64 bits. -/
theorem printNumber_eq (e : Escape) {base num : ℕ} (hbase : 1 < base) (hnum : num < 2 ^ 64)
    (st : σ) : printNumber putch e base num st = .ok (emit putch
      (List.replicate (padding base num e.width) e.padc ++ numeral base num) st) :=
  printnum_eq putch e.padc hbase 63 num e.width st
    (Nat.lt_of_lt_of_le hnum (Nat.pow_le_pow_left hbase 64))

end Putch

end Ucore
