import Ucore.Fmt.Number

/-!
# Dividing 64 bits by 32

`arch_do_div` of `arch/x86/include/div64.h`.  The processor divides 64 bits by 32 with one `divl`,
but only if the quotient has at most 32 bits.  So the upper word is divided first, and `divl` gets
its remainder, which is less than the divisor (`divl_eq`).  Together this is the division of the
whole number (`archDoDiv_eq`), and `printnum` with this division in the place of `do_div` is
`printnum` with the division of natural numbers (`printnum64_eq`).

The arithmetic is that of a number with two digits in the base `2 ^ 32`: the remainder of the upper
one, in front of the lower one, gives a quotient of one digit (`div_lt_of_upper_lt`), and the two
quotients side by side are the quotient of the number (`div_words`).
-/

set_option autoImplicit false

namespace Ucore

/-- `divl`, on the dividend `upper:low`: the quotient and the remainder.  The divide error, for a
divisor that is 0 or a quotient with more than 32 bits, stops with `Fault.assertion`. -/
def divl (low upper base : BitVec 32) : Res (BitVec 32 × BitVec 32) :=
  let n := upper.toNat * 2 ^ 32 + low.toNat
  if base = 0#32 ∨ n / base.toNat ≥ 2 ^ 32 then .error .assertion
  else .ok (BitVec.ofNat 32 (n / base.toNat), BitVec.ofNat 32 (n % base.toNat))

/-- `arch_do_div`: `n` after it, and its value. -/
def archDoDiv (n : BitVec 64) (base : BitVec 32) : Res (BitVec 64 × BitVec 32) := do
  let low := n.setWidth 32
  let high := (n >>> 32).setWidth 32
  -- `high % base` faults for the base 0, and so does `divl`
  let (upper, high) := if high ≠ 0#32 then (high % base, high / base) else (high, high)
  let (low, mod) ← divl low upper base
  return (high ++ low, mod)

section Putch

variable {σ : Type} (putch : ℤ → σ → σ)

/-- `printnum`, with `arch_do_div` for `do_div`. -/
def printnum64 [Overflow] (padc : ℤ) (base : BitVec 32) : ℕ → BitVec 64 → ℤ → σ → Res σ
  | 0, _, _, _ => .error .fuel
  | fuel + 1, num, width, st => do
    let (result, mod) ← archDoDiv num base
    let st ←
      if num ≥ base.setWidth 64 then printnum64 padc base fuel result (cInt (width - 1)) st
      else .ok (putPad putch padc (cInt (width - 1)).toNat st)
    return putch (digitChar mod.toNat) st

end Putch

/-! ## The division -/

/-- A remainder in front of another word gives a quotient of one word. -/
theorem div_lt_of_upper_lt {upper low base : ℕ} (hupper : upper < base) (hlow : low < 2 ^ 32) :
    (upper * 2 ^ 32 + low) / base < 2 ^ 32 := by
  rw [Nat.div_lt_iff_lt_mul (by omega)]
  have hmul : (upper + 1) * 2 ^ 32 ≤ base * 2 ^ 32 := Nat.mul_le_mul_right _ hupper
  rw [Nat.mul_comm (2 ^ 32) base]
  omega

/-- **No divide error**: `divl` is exact if the upper word is less than the divisor. -/
theorem divl_eq {low upper base : BitVec 32} (h : upper.toNat < base.toNat) :
    ∃ q r, divl low upper base = .ok (q, r) ∧
      q.toNat = (upper.toNat * 2 ^ 32 + low.toNat) / base.toNat ∧
      r.toNat = (upper.toNat * 2 ^ 32 + low.toNat) % base.toNat := by
  have hquot := div_lt_of_upper_lt h low.isLt
  have hmod : (upper.toNat * 2 ^ 32 + low.toNat) % base.toNat < 2 ^ 32 :=
    (Nat.mod_lt _ (by omega)).trans base.isLt
  have hne : base ≠ 0#32 := by
    rintro rfl
    exact Nat.not_lt_zero _ h
  refine ⟨_, _, if_neg (not_or.2 ⟨hne, not_le.2 hquot⟩), ?_, ?_⟩
  · rw [BitVec.toNat_ofNat, Nat.mod_eq_of_lt hquot]
  · rw [BitVec.toNat_ofNat, Nat.mod_eq_of_lt hmod]

/-- Dividing a number of two words, the upper word first. -/
theorem div_words (high low base : ℕ) :
    (high * 2 ^ 32 + low) / base =
        high / base * 2 ^ 32 + (high % base * 2 ^ 32 + low) / base ∧
      (high * 2 ^ 32 + low) % base = (high % base * 2 ^ 32 + low) % base := by
  have hsplit : high * 2 ^ 32 + low =
      high % base * 2 ^ 32 + low + base * (high / base * 2 ^ 32) := by
    calc high * 2 ^ 32 + low
        = (high % base + base * (high / base)) * 2 ^ 32 + low := by rw [Nat.mod_add_div]
      _ = high % base * 2 ^ 32 + low + base * (high / base * 2 ^ 32) := by ring
  rcases Nat.eq_zero_or_pos base with rfl | hpos
  · simp
  · rw [hsplit, Nat.add_mul_div_left _ _ hpos, Nat.add_mul_mod_self_left, Nat.add_comm]
    exact ⟨rfl, rfl⟩

theorem toNat_words (high low : BitVec 32) :
    (high ++ low).toNat = high.toNat * 2 ^ 32 + low.toNat := by
  rw [BitVec.toNat_append, ← Nat.shiftLeft_add_eq_or_of_lt low.isLt, Nat.shiftLeft_eq]

/-- What the upper word is replaced by.  If it is 0 there is nothing to divide. -/
theorem upper_eq (high base : BitVec 32) :
    (if high ≠ 0#32 then (high % base, high / base) else (high, high)) =
      (high % base, high / base) := by
  split
  · rfl
  · next h =>
    rw [not_not.1 h, BitVec.zero_umod, BitVec.zero_udiv]

/-- **The division is exact**, and `divl` does not fault. -/
theorem archDoDiv_eq (n : BitVec 64) {base : BitVec 32} (hbase : base ≠ 0#32) :
    ∃ q r, archDoDiv n base = .ok (q, r) ∧ q.toNat = n.toNat / base.toNat ∧
      r.toNat = n.toNat % base.toNat := by
  have hpos : 0 < base.toNat := Nat.pos_of_ne_zero fun h => hbase (BitVec.eq_of_toNat_eq h)
  have hn := n.isLt
  have hlow : (n.setWidth 32).toNat = n.toNat % 2 ^ 32 := BitVec.toNat_setWidth 32 n
  have hhigh : ((n >>> 32).setWidth 32).toNat = n.toNat / 2 ^ 32 := by
    rw [BitVec.toNat_setWidth, BitVec.toNat_ushiftRight, Nat.shiftRight_eq_div_pow]
    exact Nat.mod_eq_of_lt (by omega)
  have hwords : n.toNat = ((n >>> 32).setWidth 32).toNat * 2 ^ 32 + (n.setWidth 32).toNat := by
    rw [hlow, hhigh]
    omega
  obtain ⟨hdiv, hmod⟩ := div_words ((n >>> 32).setWidth 32).toNat (n.setWidth 32).toNat base.toNat
  have hupper : ((n >>> 32).setWidth 32 % base).toNat < base.toNat := by
    rw [BitVec.toNat_umod]
    exact Nat.mod_lt _ hpos
  obtain ⟨q, r, hdivl, hq, hr⟩ := @divl_eq (n.setWidth 32) _ _ hupper
  refine ⟨(n >>> 32).setWidth 32 / base ++ q, r, ?_, ?_, ?_⟩
  · simp only [archDoDiv, upper_eq, hdivl, Res.ok_bind, Res.pure_eq]
  · rw [toNat_words, hq, BitVec.toNat_udiv, BitVec.toNat_umod, ← hdiv, ← hwords]
  · rw [hr, BitVec.toNat_umod, ← hmod, ← hwords]

/-! ## Printing -/

section Putch

variable {σ : Type} (putch : ℤ → σ → σ)

/-- **`printnum` with this division** prints what it prints with the division of natural numbers. -/
theorem printnum64_eq [Overflow] (padc : ℤ) {base : BitVec 32} (hbase : base ≠ 0#32) (fuel : ℕ)
    (num : BitVec 64) (width : ℤ) (st : σ) :
    printnum64 putch padc base fuel num width st =
      printnum putch padc base.toNat fuel num.toNat width st := by
  induction fuel generalizing num width with
  | zero => rfl
  | succ fuel ih =>
    obtain ⟨q, r, hdiv, hq, hr⟩ := archDoDiv_eq num hbase
    have hge : num ≥ base.setWidth 64 ↔ num.toNat ≥ base.toNat := by
      have hlt := base.isLt
      rw [ge_iff_le, BitVec.le_def, BitVec.toNat_setWidth, Nat.mod_eq_of_lt (by omega)]
    simp only [printnum64, hdiv, Res.ok_bind, printnum, ← hq, ← hr, ih, hge]

end Putch

/-- **The 64-by-32 division step is exact.**  For every number and every divisor but 0,
`arch_do_div` leaves the quotient and gives the remainder, without a divide error.  So `printnum`
prints the digits of every number of 64 bits, with the padding in front of them. -/
theorem archDoDiv_exact :
    (∀ (n : BitVec 64) (base : BitVec 32), base ≠ 0#32 →
      archDoDiv n base = .ok (n / base.setWidth 64, (n % base.setWidth 64).setWidth 32)) ∧
    ∀ [Overflow] (σ : Type) (putch : ℤ → σ → σ) (padc : ℤ) (num : BitVec 64) (width : ℤ) (st : σ),
      ∀ base ∈ [8, 10, 16],
        printnum64 putch padc (BitVec.ofNat 32 base) 64 num width st = .ok (emit putch
          (List.replicate (padding base num.toNat width) padc ++
            (digitsOf base num.toNat).map fun d => (digitChar d : ℤ)) st) ∧
        valueOf base 0 (digitsOf base num.toNat) = num.toNat ∧
        ∀ d ∈ digitsOf base num.toNat, d < base := by
  refine ⟨fun n base hbase => ?_, fun {o} σ putch padc num width st base hmem => ?_⟩
  · obtain ⟨q, r, hdiv, hq, hr⟩ := archDoDiv_eq n hbase
    have hwide : (base.setWidth 64).toNat = base.toNat := by
      have hlt := base.isLt
      rw [BitVec.toNat_setWidth, Nat.mod_eq_of_lt (by omega)]
    have hquot : q = n / base.setWidth 64 := BitVec.eq_of_toNat_eq (by
      rw [hq, BitVec.toNat_udiv, hwide])
    have hmod : r = (n % base.setWidth 64).setWidth 32 := BitVec.eq_of_toNat_eq (by
      rw [BitVec.toNat_setWidth, BitVec.toNat_umod, hwide, ← hr, Nat.mod_eq_of_lt r.isLt])
    rw [hdiv, hquot, hmod]
  · have hbase : 1 < base ∧ base < 2 ^ 32 := by
      simp only [List.mem_cons, List.not_mem_nil, or_false] at hmem
      omega
    have hnat : (BitVec.ofNat 32 base).toNat = base := by
      rw [BitVec.toNat_ofNat, Nat.mod_eq_of_lt hbase.2]
    have hne : BitVec.ofNat 32 base ≠ 0#32 := by
      intro h
      rw [h, BitVec.toNat_zero] at hnat
      omega
    have hfuel : num.toNat < base ^ (63 + 1) :=
      Nat.lt_of_lt_of_le num.isLt (Nat.pow_le_pow_left hbase.1 64)
    rw [printnum64_eq putch padc hne, hnat]
    exact ⟨printnum_eq putch padc hbase.1 63 num.toNat width st hfuel,
      valueOf_digitsOf hbase.1 num.toNat, lt_of_mem_digitsOf hbase.1 num.toNat⟩

/-- The upper word of 10 ^ 19 is greater than 10. -/
theorem archDoDiv_exact_ten :
    archDoDiv 10000000000000000007#64 10#32 = .ok (1000000000000000000#64, 7#32) :=
  archDoDiv_exact.1 10000000000000000007#64 10#32 (by decide)

end Ucore
