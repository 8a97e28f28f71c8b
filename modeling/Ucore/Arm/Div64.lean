import Ucore.Arm.Sdiv
import Ucore.Fmt.Div

/-!
# Dividing 64 bits by 32, on the ARM

`__do_div64` finds the upper word of the quotient like `__udivsi3`, bit by bit, and for the lower
word it shifts the remainder up instead of shifting the divisor down.  The remainder may then have a
33rd bit, which is in the carry.  As soon as the remainder is 0, the bits up to the next 1 of the
dividend are skipped.

## The plan

The upper word of the dividend is divided first, and its remainder is the upper word of what is
divided next, just as with pencil and paper.

* `ends_upper` — the upper word, with one trial a round.  The lines before it are those of
  `ends_align`, on the registers `upperRegs`.
* `Lower n m j xl xh yl` is the state for the lower word: `j` bits of it are to be found, `xh` is
  the remainder so far, and the bits of the dividend that are not used yet are at the upper end of
  `xl`. `ends_lower_trial` is one bit, with the 33rd bit of the remainder: a remainder that has one
  can always be subtracted from.  `ends_lower_skip` passes over zeros, and `ends_lower` is the loop.
* `doDiv64_general` puts the two words together.
* `doDiv64_power` and `doDiv64_one` are the short cuts, for a divisor that is a power of 2, where
  the quotient and the remainder are read off the dividend (`div_shift`), and for the divisor 1.

`doDiv64_ends` is the routine for every divisor but 0.  The state is written with `div64State`,
which has the five registers that the routine uses, and an assignment to one of them is another
`div64State`.
-/

set_option autoImplicit false

namespace Ucore.Arm

/-- The state of `__do_div64`. -/
def div64State (s : Cpu) (xl xh yl yh ip : BitVec 32) (n z c v : Bool) : Cpu :=
  ⟨fun r => match r with
    | .r0 => xl
    | .r1 => xh
    | .r2 => yl
    | .r3 => yh
    | .ip => ip
    | r => s.reg r, n, z, c, v, s.mem⟩

section

variable {s : Cpu} (xl xh yl yh ip x : BitVec 32) (n z c v : Bool)

theorem div64State_set_r0 : (div64State s xl xh yl yh ip n z c v).set .r0 x =
    div64State s x xh yl yh ip n z c v := by
  refine congrArg (fun f => Cpu.mk f n z c v s.mem) (funext fun r => ?_)
  cases r <;> rfl

theorem div64State_set_r1 : (div64State s xl xh yl yh ip n z c v).set .r1 x =
    div64State s xl x yl yh ip n z c v := by
  refine congrArg (fun f => Cpu.mk f n z c v s.mem) (funext fun r => ?_)
  cases r <;> rfl

theorem div64State_set_r2 : (div64State s xl xh yl yh ip n z c v).set .r2 x =
    div64State s xl xh x yh ip n z c v := by
  refine congrArg (fun f => Cpu.mk f n z c v s.mem) (funext fun r => ?_)
  cases r <;> rfl

theorem div64State_set_r3 : (div64State s xl xh yl yh ip n z c v).set .r3 x =
    div64State s xl xh yl x ip n z c v := by
  refine congrArg (fun f => Cpu.mk f n z c v s.mem) (funext fun r => ?_)
  cases r <;> rfl

theorem div64State_set_ip : (div64State s xl xh yl yh ip n z c v).set .ip x =
    div64State s xl xh yl yh x n z c v := by
  refine congrArg (fun f => Cpu.mk f n z c v s.mem) (funext fun r => ?_)
  cases r <;> rfl

theorem set_ip_eq : Cpu.set ⟨s.reg, n, z, c, v, s.mem⟩ .ip x =
    div64State s (s.reg .r0) (s.reg .r1) (s.reg .r2) (s.reg .r3) x n z c v := by
  refine congrArg (fun f => Cpu.mk f n z c v s.mem) (funext fun r => ?_)
  cases r <;> rfl

end

/-! ## The lower word -/

/-- `j` bits of the lower word are to be found: `xl` has the bits of the dividend that are not used
yet, at its upper end, and `xh` is the remainder before them. -/
def Lower (n m j : ℕ) (xl xh yl : BitVec 32) : Prop :=
  ∃ rest < 2 ^ j, xl.toNat = rest * 2 ^ (32 - j) ∧ Quot n m j yl.toNat (xh.toNat * 2 ^ j + rest)

/-- The highest bit of `xl`, and the bits behind it. -/
theorem split_top {i rest : ℕ} {xl : BitVec 32} (hi : i < 32) (hrest : rest < 2 ^ (i + 1))
    (hxl : xl.toNat = rest * 2 ^ (32 - (i + 1))) :
    ∃ rest' < 2 ^ i, rest = xl.msb.toNat * 2 ^ i + rest' ∧
      (xl <<< 1).toNat = rest' * 2 ^ (32 - i) := by
  have hpow : 2 ^ i * 2 ^ (32 - (i + 1)) = 2 ^ 31 := by
    rw [← pow_add]
    congr 1
    omega
  have hpow' : 2 ^ (32 - i) = 2 * 2 ^ (32 - (i + 1)) := by
    rw [← pow_succ']
    congr 1
    omega
  have hmsb : xl.msb = decide (2 ^ i ≤ rest) := by
    rw [BitVec.msb_eq_decide, decide_eq_decide, hxl, show 32 - 1 = 31 from rfl, ← hpow]
    exact Nat.mul_le_mul_right_iff (Nat.two_pow_pos _)
  rw [pow_succ] at hrest
  rw [BitVec.toNat_shiftLeft, Nat.shiftLeft_eq, pow_one, hxl, hmsb, hpow']
  by_cases hle : 2 ^ i ≤ rest
  · refine ⟨rest - 2 ^ i, by omega, ?_, ?_⟩
    · rw [decide_eq_true hle, Bool.toNat_true]
      omega
    · have hsplit : rest * 2 ^ (32 - (i + 1)) =
          (rest - 2 ^ i) * 2 ^ (32 - (i + 1)) + 2 ^ 31 := by
        rw [← hpow, ← Nat.add_mul, Nat.sub_add_cancel hle]
      have hlt : (rest - 2 ^ i) * 2 ^ (32 - (i + 1)) < 2 ^ 31 := by
        rw [← hpow]
        exact Nat.mul_lt_mul_of_pos_right (by omega) (Nat.two_pow_pos _)
      rw [hsplit, Nat.mul_left_comm]
      omega
  · have hlt : rest * 2 ^ (32 - (i + 1)) < 2 ^ 31 := by
      rw [← hpow]
      exact Nat.mul_lt_mul_of_pos_right (by omega) (Nat.two_pow_pos _)
    refine ⟨rest, by omega, ?_, ?_⟩
    · rw [decide_eq_false hle, Bool.toNat_false, Nat.zero_mul, Nat.zero_add]
    · rw [Nat.mul_left_comm]
      omega

theorem value_lsl_one (s : Cpu) (r : Reg) :
    (Operand.shift .lsl r 1).value s = (s.reg r <<< 1, (s.reg r).msb) := by
  rw [BitVec.msb_eq_getLsbD_last]
  exact Prod.ext rfl (Bool.true_and _)

/-- The remainder is shifted up, with the next bit of the dividend. -/
theorem addWithCarry_self (x : BitVec 32) (c : Bool) :
    (addWithCarry x x c).1.toNat = (2 * x.toNat + c.toNat) % 2 ^ 32 ∧
      (addWithCarry x x c).2.1 = decide (2 ^ 32 ≤ 2 * x.toNat + c.toNat) := by
  have hx := x.isLt
  constructor
  · cases c with
    | false => simp [addWithCarry, Nat.two_mul]
    | true =>
      simp only [addWithCarry, BitVec.toNat_add, Bool.toNat_true, BitVec.ofBool_true]
      change ((x.toNat + x.toNat) % 2 ^ 32 + 1) % 2 ^ 32 = _
      omega
  · rw [addWithCarry, Nat.two_mul]

section

open Line Instr Operand

variable {s : Cpu} {yh : BitVec 32} {n : ℕ} {Q : Cpu → Prop}

/-- The trial of the bit `i` of the lower word, where `t` is the remainder with 33 bits. -/
theorem ends_lower_trial {i t rest : ℕ} {xl xh yl : BitVec 32} (hi : i < 32)
    (hq : Quot n (s.reg .r4).toNat (i + 1) yl.toNat (t * 2 ^ i + rest)) (hrest : rest < 2 ^ i)
    (hxl : xl.toNat = rest * 2 ^ (32 - i)) (hxh : xh.toNat = t % 2 ^ 32)
    (hloop : ∀ xh yl, 0 < i → Lower n (s.reg .r4).toNat i xl xh yl → ∀ n' z c v,
      cpu.Ends doDiv64 (Asm.goto (.num 4 1) doDiv64)
        (div64State s xl xh yl yh (1#32 <<< (i - 1)) n' z c v) Q)
    (hexit : ∀ xl xh yl ip, yl.toNat = n / (s.reg .r4).toNat → xh.toNat = n % (s.reg .r4).toNat →
      ∀ n' z c v, Q ((div64State s xl xh yl yh ip n' z c v).set .pc (s.reg .lr)))
    (n' z v : Bool) :
    cpu.Ends doDiv64 (Asm.goto (.num 5 1) doDiv64)
      (div64State s xl xh yl yh (1#32 <<< i) n' z (decide ((s.reg .r4).toNat ≤ t)) v) Q := by
  have hend : ∀ (xh yl : BitVec 32),
      Quot n (s.reg .r4).toNat i yl.toNat (xh.toNat * 2 ^ i + rest) → ∀ n' z c v,
      cpu.Ends doDiv64 ((Asm.goto (.num 5 1) doDiv64).drop 2)
        (div64State s xl xh yl yh (1#32 <<< i) n' z c v) Q := by
    intro xh yl hq n' z c v
    refine ends_al ?_
    rw [exec_movs, value_lsr]
    change cpu.Ends doDiv64 _ (Cpu.set (div64State s xl xh yl yh (1#32 <<< i) _
      ((1#32 <<< i) >>> 1 == 0#32) _ _) .ip ((1#32 <<< i) >>> 1)) Q
    rw [div64State_set_ip]
    rcases Nat.eq_zero_or_pos i with rfl | hpos
    · rw [bit_shiftRight_eq_zero (by omega) hi]
      obtain rfl : rest = 0 := by omega
      rw [Nat.pow_zero, Nat.mul_one, Nat.add_zero] at hq
      exact ends_branch_neg rfl (ends_ret_al
        (hexit _ _ _ _ hq.exact.1.symm hq.exact.2.symm _ _ _ _))
    · have hne : 1#32 <<< (i - 1) ≠ 0#32 := bit_ne_zero (by omega)
      rw [bit_shiftRight hpos hi]
      refine ends_branch_pos (congrArg Bool.not (beq_eq_false_iff_ne.2 hne)) ?_
      exact hloop xh yl hpos ⟨rest, hrest, hxl, hq⟩ _ _ _ _
  have hstep := hq.trial_shifted hrest
  have hm := (s.reg .r4).isLt
  have ht : t < 2 * (s.reg .r4).toNat := by
    have hlt : t * 2 ^ i + rest < 2 * (s.reg .r4).toNat * 2 ^ i := by
      rw [Nat.mul_comm 2, Nat.mul_assoc, ← pow_succ']
      exact hq.lt
    refine Nat.lt_of_mul_lt_mul_right (a := 2 ^ i) ?_
    omega
  by_cases hle : (s.reg .r4).toNat ≤ t
  · rw [decide_eq_true hle]
    rw [if_pos hle, if_pos hle] at hstep
    refine ends_op_pos rfl (ends_op_pos rfl ?_)
    rw [exec_orr, div64State_set_r2, exec_sub, div64State_set_r1]
    refine hend _ _ ?_ _ _ _ _
    have hor : (yl ||| 1#32 <<< i).toNat = yl.toNat + 2 ^ i := by
      rw [BitVec.toNat_or, toNat_bit hi, or_two_pow_eq_add hq.dvd]
    have hsub : (xh - s.reg .r4).toNat = t - (s.reg .r4).toNat := by
      rw [BitVec.toNat_sub, hxh]
      omega
    exact hor.symm ▸ hsub.symm ▸ hstep
  · rw [decide_eq_false hle]
    rw [if_neg hle, if_neg hle] at hstep
    refine ends_op_neg rfl (ends_op_neg rfl (hend _ _ ?_ _ _ _ _))
    rw [hxh, Nat.mod_eq_of_lt (by omega)]
    exact hstep

/-- The remainder is 0, and the bits up to the next 1 of the dividend are skipped. -/
theorem ends_lower_skip (hm : 1 < (s.reg .r4).toNat) {j rest : ℕ} {xl xh yl : BitVec 32}
    (hloop : ∀ i < j, ∀ xl xh, 0 < i → Lower n (s.reg .r4).toNat i xl xh yl → ∀ n' z c v,
      cpu.Ends doDiv64 (Asm.goto (.num 4 1) doDiv64)
        (div64State s xl xh yl yh (1#32 <<< (i - 1)) n' z c v) Q)
    (hexit : ∀ xl xh yl ip, yl.toNat = n / (s.reg .r4).toNat → xh.toNat = n % (s.reg .r4).toNat →
      ∀ n' z c v, Q ((div64State s xl xh yl yh ip n' z c v).set .pc (s.reg .lr)))
    (hj : j < 32) (hpos : 0 < rest) (hrest : rest < 2 ^ j) (hxl : xl.toNat = rest * 2 ^ (32 - j))
    (hq : Quot n (s.reg .r4).toNat j yl.toNat rest) (n' z c v : Bool) :
    cpu.Ends doDiv64 (Asm.goto (.num 7 1) doDiv64)
      (div64State s xl xh yl yh (1#32 <<< j) n' z c v) Q := by
  refine Asm.ends_loop (Label.num 7 1) (fun i (t : Cpu) => i ≤ j ∧ ∃ rest xl n' z c v, 0 < rest ∧
    rest < 2 ^ i ∧ xl.toNat = rest * 2 ^ (32 - i) ∧ Quot n (s.reg .r4).toNat i yl.toNat rest ∧
    t = div64State s xl xh yl yh (1#32 <<< i) n' z c v) ?_
    ⟨Nat.le_refl j, rest, xl, n', z, c, v, hpos, hrest, hxl, hq, rfl⟩
  rintro i _ ⟨hij, rest, xl, n', z, c, v, hpos, hrest, hxl, hq, rfl⟩ ih
  obtain ⟨i, rfl⟩ : ∃ k, i = k + 1 := Nat.exists_eq_succ_of_ne_zero (by rintro rfl; omega)
  obtain ⟨rest', hrest', hsplit, hxl'⟩ := split_top (by omega) hrest hxl
  refine ends_al ?_
  rw [exec_movs, value_lsl_one]
  change cpu.Ends doDiv64 _ (Cpu.set (div64State s xl xh yl yh (1#32 <<< (i + 1)) _ _ xl.msb _) .r0
    (xl <<< 1)) Q
  rw [div64State_set_r0]
  refine ends_al ?_
  rw [exec_mov, div64State_set_ip]
  change cpu.Ends doDiv64 _ (div64State s (xl <<< 1) xh yl yh ((1#32 <<< (i + 1)) >>> 1) _ _ _ _) Q
  rw [bit_shiftRight (by omega) (by omega), Nat.add_sub_cancel]
  cases hmsb : xl.msb with
  | false =>
    rw [hmsb, Bool.toNat_false, Nat.zero_mul, Nat.zero_add] at hsplit
    subst hsplit
    refine ends_branch_pos rfl (ih i _ (Nat.lt_succ_self i) ⟨by omega, rest, _, _, _, _, _, hpos,
      hrest', hxl', hq.trial_neg ?_, rfl⟩)
    exact hrest'.trans_le (Nat.le_mul_of_pos_left _ (by omega))
  | true =>
    rw [hmsb, Bool.toNat_true] at hsplit
    have hone : Quot n (s.reg .r4).toNat i yl.toNat ((1#32).toNat * 2 ^ i + rest') := by
      refine hsplit ▸ hq.trial_neg ?_
      have hmul : 2 * 2 ^ i ≤ (s.reg .r4).toNat * 2 ^ i := Nat.mul_le_mul_right _ hm
      omega
    refine ends_branch_neg rfl (ends_al ?_)
    rw [exec_movs, value_lsr]
    change cpu.Ends doDiv64 _ (Cpu.set (div64State s (xl <<< 1) xh yl yh (1#32 <<< i) _
      ((1#32 <<< i) >>> 1 == 0#32) _ _) .ip ((1#32 <<< i) >>> 1)) Q
    rw [div64State_set_ip]
    refine ends_al ?_
    rw [exec_mov, div64State_set_r1]
    rcases Nat.eq_zero_or_pos i with rfl | hi
    · rw [bit_shiftRight_eq_zero (by omega) (by omega)]
      obtain rfl : rest' = 0 := by omega
      rw [Nat.pow_zero, Nat.mul_one, Nat.add_zero] at hone
      exact ends_branch_neg rfl (ends_ret_al
        (hexit _ _ _ _ hone.exact.1.symm hone.exact.2.symm _ _ _ _))
    · have hne : 1#32 <<< (i - 1) ≠ 0#32 := bit_ne_zero (by omega)
      rw [bit_shiftRight hi (by omega)]
      refine ends_branch_pos (congrArg Bool.not (beq_eq_false_iff_ne.2 hne)) ?_
      exact hloop i (by omega) _ _ hi ⟨rest', hrest', hxl', hone⟩ _ _ _ _

/-- **The loop for the lower word.** -/
theorem ends_lower (hm : 1 < (s.reg .r4).toNat)
    (hexit : ∀ xl xh yl ip, yl.toNat = n / (s.reg .r4).toNat → xh.toNat = n % (s.reg .r4).toNat →
      ∀ n' z c v, Q ((div64State s xl xh yl yh ip n' z c v).set .pc (s.reg .lr)))
    {j : ℕ} {xl xh yl : BitVec 32} (hj : j < 32)
    (h : Lower n (s.reg .r4).toNat (j + 1) xl xh yl) (n' z c v : Bool) :
    cpu.Ends doDiv64 (Asm.goto (.num 4 1) doDiv64)
      (div64State s xl xh yl yh (1#32 <<< j) n' z c v) Q := by
  refine Asm.ends_loop (Label.num 4 1) (fun j (t : Cpu) => j < 32 ∧ ∃ xl xh yl n' z c v,
    Lower n (s.reg .r4).toNat (j + 1) xl xh yl ∧
    t = div64State s xl xh yl yh (1#32 <<< j) n' z c v) ?_
    ⟨hj, xl, xh, yl, n', z, c, v, h, rfl⟩
  rintro i _ ⟨hi, xl, xh, yl, n', z, c, v, ⟨rest, hrest, hxl, hq⟩, rfl⟩ ih
  have hloop : ∀ k ≤ i, ∀ xl xh yl, 0 < k → Lower n (s.reg .r4).toNat k xl xh yl → ∀ n' z c v,
      cpu.Ends doDiv64 (Asm.goto (.num 4 1) doDiv64)
        (div64State s xl xh yl yh (1#32 <<< (k - 1)) n' z c v) Q := by
    intro k hk xl xh yl hpos hlower n' z c v
    refine ih (k - 1) _ (by omega) ⟨by omega, xl, xh, yl, n', z, c, v, ?_, rfl⟩
    rwa [Nat.sub_add_cancel hpos]
  obtain ⟨rest', hrest', rfl, hxl'⟩ := split_top hi hrest hxl
  obtain ⟨hsum, hcarry⟩ := addWithCarry_self xh xl.msb
  have ht : xh.toNat * 2 ^ (i + 1) + (xl.msb.toNat * 2 ^ i + rest') =
      (2 * xh.toNat + xl.msb.toNat) * 2 ^ i + rest' := by
    rw [pow_succ]
    ring
  rw [ht] at hq
  refine ends_al ?_
  rw [exec_movs, value_lsl_one]
  change cpu.Ends doDiv64 _ (Cpu.set (div64State s xl xh yl yh (1#32 <<< i) _ _ xl.msb _) .r0
    (xl <<< 1)) Q
  rw [div64State_set_r0]
  refine ends_al ?_
  rw [exec_adcs]
  change cpu.Ends doDiv64 _ (Cpu.set (div64State s (xl <<< 1) xh yl yh (1#32 <<< i) _
    ((addWithCarry xh xh xl.msb).1 == 0#32) (addWithCarry xh xh xl.msb).2.1 _) .r1
    (addWithCarry xh xh xl.msb).1) Q
  rw [div64State_set_r1, hcarry]
  generalize (addWithCarry xh xh xl.msb).1 = xh' at hsum
  generalize 2 * xh.toNat + xl.msb.toNat = t at hq hsum
  have hmlt := (s.reg .r4).isLt
  have htrial : ∀ n' z v, cpu.Ends doDiv64 (Asm.goto (.num 5 1) doDiv64) (div64State s (xl <<< 1) xh'
      yl yh (1#32 <<< i) n' z (decide ((s.reg .r4).toNat ≤ t)) v) Q :=
    ends_lower_trial hi hq hrest' hxl' hsum (fun xh yl => hloop i (Nat.le_refl i) _ xh yl) hexit
  by_cases hz : xh' = 0#32
  · refine ends_branch_pos (beq_iff_eq.2 hz) ?_
    subst hz
    rw [BitVec.toNat_zero] at hsum
    by_cases hc : 2 ^ 32 ≤ t
    · -- only the 33rd bit is set
      rw [decide_eq_true (show (s.reg .r4).toNat ≤ t by omega)] at htrial
      exact ends_branch_pos (decide_eq_true hc) (decide_eq_true hc ▸ htrial _ _ _)
    · obtain rfl : t = 0 := by omega
      rw [Nat.zero_mul, Nat.zero_add] at hq
      refine ends_branch_neg (decide_eq_false hc) (ends_al ?_)
      rw [exec_cmp, value_imm]
      have hzero : xl <<< 1 = 0#32 ↔ rest' = 0 := by
        rw [← BitVec.toNat_inj, hxl', BitVec.toNat_zero, Nat.mul_eq_zero]
        exact or_iff_left (Nat.two_pow_pos _).ne'
      rcases Nat.eq_zero_or_pos rest' with hrest₀ | hpos
      · subst hrest₀
        exact ends_ret_pos (decide_eq_true (hzero.2 rfl))
          (hexit _ 0#32 _ _ (Quot.done hq).1.symm (Quot.done hq).2.symm _ _ _ _)
      · refine ends_ret_neg (decide_eq_false fun h => hpos.ne' (hzero.1 h)) (Asm.ends_fall rfl ?_)
        refine ends_lower_skip hm (fun k hk xl xh => hloop k hk.le xl xh _) hexit hi hpos hrest' hxl'
          (hq.trial_neg ?_) _ _ _ _
        exact hrest'.trans_le (Nat.le_mul_of_pos_left _ (by omega))
  · refine ends_branch_neg (beq_eq_false_iff_ne.2 hz) ?_
    by_cases hc : 2 ^ 32 ≤ t
    · rw [decide_eq_true (show (s.reg .r4).toNat ≤ t by omega)] at htrial
      exact ends_op_neg (congrArg Bool.not (decide_eq_true hc))
        (Asm.ends_fall rfl (decide_eq_true hc ▸ htrial _ _ _))
    · refine ends_op_pos (congrArg Bool.not (decide_eq_false hc)) ?_
      rw [exec_cmp]
      have hle : decide (s.reg .r4 ≤ xh') = decide ((s.reg .r4).toNat ≤ t) := by
        rw [decide_eq_decide, BitVec.le_def, hsum, Nat.mod_eq_of_lt (by omega)]
      exact Asm.ends_fall rfl (hle ▸ htrial _ _ _)

end

/-! ## The upper word -/

/-- The registers of the upper word. -/
def upperRegs : DivRegs := ⟨.r1, .r2, .r3, .ip, by decide⟩

theorem upper_file (s : Cpu) (xh yl yh ip : BitVec 32) (n z c v : Bool) :
    (⟨upperRegs.file s.reg xh yl yh ip, n, z, c, v, s.mem⟩ : Cpu) =
      div64State s (s.reg .r0) xh yl yh ip n z c v := by
  refine congrArg (fun f => Cpu.mk f n z c v s.mem) (funext fun r => ?_)
  cases r <;> rfl

section

open Line Instr Operand

variable {s : Cpu} {n m : ℕ} {Q : Cpu → Prop}

/-- **The loop for the upper word** leaves its quotient and its remainder. -/
theorem ends_upper (hexit : ∀ xh yl yh ip, yh.toNat = n / m → xh.toNat = n % m → ∀ n' z c v,
      cpu.Ends doDiv64 (Asm.goto (.num 3 1) doDiv64)
        (div64State s (s.reg .r0) xh yl yh ip n' z c v) Q)
    {k : ℕ} {xh yl yh : BitVec 32} (hk : k < 32) (hd : yl.toNat = m * 2 ^ k)
    (hq : Quot n m (k + 1) yh.toNat xh.toNat) (n' z c v : Bool) :
    cpu.Ends doDiv64 (Asm.goto (.num 2 1) doDiv64)
      (div64State s (s.reg .r0) xh yl yh (1#32 <<< k) n' z c v) Q := by
  refine Asm.ends_loop (Label.num 2 1) (fun k (t : Cpu) => ∃ xh yl yh n' z c v, k < 32 ∧
    yl.toNat = m * 2 ^ k ∧ Quot n m (k + 1) yh.toNat xh.toNat ∧
    t = div64State s (s.reg .r0) xh yl yh (1#32 <<< k) n' z c v) ?_
    ⟨xh, yl, yh, n', z, c, v, hk, hd, hq, rfl⟩
  rintro k _ ⟨xh, yl, yh, n', z, c, v, hk, hd, hq, rfl⟩ ih
  have hnext : ∀ xh yh z, Quot n m k yh.toNat xh.toNat → (z = true → xh = 0#32) → ∀ n' c v,
      cpu.Ends doDiv64 ((Asm.goto (.num 2 1) doDiv64).drop 3)
        (div64State s (s.reg .r0) xh yl yh (1#32 <<< k) n' z c v) Q := by
    intro xh yh z hq hz n' c v
    cases z with
    | true =>
      obtain rfl := hz rfl
      refine ends_op_neg rfl (ends_al ?_)
      rw [exec_mov, div64State_set_r2]
      exact ends_branch_neg rfl (Asm.ends_fall rfl
        (hexit 0#32 _ _ _ (Quot.done hq).1.symm (Quot.done hq).2.symm _ _ _ _))
    | false =>
      refine ends_op_pos rfl ?_
      rw [exec_movs, value_lsr]
      change cpu.Ends doDiv64 _ (Cpu.set (div64State s _ xh yl yh (1#32 <<< k) _
        ((1#32 <<< k) >>> 1 == 0#32) _ _) .ip ((1#32 <<< k) >>> 1)) Q
      rw [div64State_set_ip]
      refine ends_al ?_
      rw [exec_mov, div64State_set_r2]
      rcases Nat.eq_zero_or_pos k with rfl | hpos
      · rw [bit_shiftRight_eq_zero (by omega) hk]
        exact ends_branch_neg rfl (Asm.ends_fall rfl
          (hexit _ _ _ _ hq.exact.1.symm hq.exact.2.symm _ _ _ _))
      · have hne : 1#32 <<< (k - 1) ≠ 0#32 := bit_ne_zero (by omega)
        rw [bit_shiftRight hpos hk]
        refine ends_branch_pos (congrArg Bool.not (beq_eq_false_iff_ne.2 hne)) ?_
        refine ih (k - 1) _ (by omega) ⟨xh, _, yh, _, _, _, _, by omega, toNat_divisor hd hpos, ?_, rfl⟩
        rwa [Nat.sub_add_cancel hpos]
  refine ends_al ?_
  rw [exec_cmp, value_reg]
  change cpu.Ends doDiv64 _ (div64State s _ xh yl yh (1#32 <<< k) _ (decide (xh = yl))
    (decide (yl ≤ xh)) _) Q
  by_cases hle : yl ≤ xh
  · rw [decide_eq_true hle]
    refine ends_op_pos rfl ?_
    rw [exec_orr, div64State_set_r3]
    refine ends_op_pos rfl ?_
    rw [exec_subs, value_reg]
    change cpu.Ends doDiv64 _ (Cpu.set (div64State s _ xh yl (yh ||| 1#32 <<< k) (1#32 <<< k) _
      (decide (xh = yl)) _ _) .r1 (xh - yl)) Q
    rw [div64State_set_r1]
    refine hnext _ _ _ ?_ ?_ _ _ _
    · rw [BitVec.toNat_or, toNat_bit hk, or_two_pow_eq_add hq.dvd, BitVec.toNat_sub_of_le hle, hd]
      exact hq.trial_pos (hd ▸ BitVec.le_def.1 hle)
    · intro hz
      rw [of_decide_eq_true hz, BitVec.sub_self]
  · have hne : xh ≠ yl := fun h => hle (h ▸ BitVec.le_refl _)
    rw [decide_eq_false hle, decide_eq_false hne]
    refine ends_op_neg rfl (ends_op_neg rfl (hnext xh yh false (hq.trial_neg ?_)
      (fun h => Bool.noConfusion h) _ _ _))
    rw [← hd]
    exact BitVec.lt_def.1 (BitVec.not_le.1 hle)

end

/-! ## The routine -/

/-- What `__do_div64` leaves: the quotient in `r3:r2` and the remainder in `r1`. -/
structure Div64Result (s s' : Cpu) : Prop where
  quotient : (s'.reg .r3).toNat * 2 ^ 32 + (s'.reg .r2).toNat =
    ((s.reg .r1).toNat * 2 ^ 32 + (s.reg .r0).toNat) / (s.reg .r4).toNat
  remainder : (s'.reg .r1).toNat =
    ((s.reg .r1).toNat * 2 ^ 32 + (s.reg .r0).toNat) % (s.reg .r4).toNat
  returned : Returned [.r0, .r1, .r2, .r3, .ip] s s'

theorem div64Result_of_eq {s : Cpu} {xl xh yl yh ip : BitVec 32} {n z c v : Bool}
    (hq : yh.toNat * 2 ^ 32 + yl.toNat =
      ((s.reg .r1).toNat * 2 ^ 32 + (s.reg .r0).toNat) / (s.reg .r4).toNat)
    (hr : xh.toNat = ((s.reg .r1).toNat * 2 ^ 32 + (s.reg .r0).toNat) % (s.reg .r4).toNat) :
    Div64Result s ((div64State s xl xh yl yh ip n z c v).set .pc (s.reg .lr)) := by
  refine ⟨hq, hr, rfl, ?_, rfl⟩
  intro r hpc hr
  cases r <;> first | rfl | exact absurd rfl hpc | exact absurd (by decide) hr

section

open Line Instr Operand

variable {s : Cpu}

/-- From the quotient and the remainder of the upper word on. -/
theorem ends_lower_word (hm : 1 < (s.reg .r4).toNat) {xh yl yh ip : BitVec 32}
    (hyh : yh.toNat = (s.reg .r1).toNat / (s.reg .r4).toNat)
    (hxh : xh.toNat = (s.reg .r1).toNat % (s.reg .r4).toNat) (n z c v : Bool) :
    cpu.Ends doDiv64 (Asm.goto (.num 3 1) doDiv64)
      (div64State s (s.reg .r0) xh yl yh ip n z c v) (Div64Result s) := by
  obtain ⟨hdiv, hmod⟩ := div_words (s.reg .r1).toNat (s.reg .r0).toNat (s.reg .r4).toNat
  rw [← hyh, ← hxh] at hdiv
  rw [← hxh] at hmod
  have hloop (n z c v : Bool) : cpu.Ends doDiv64 (Asm.goto (.num 4 1) doDiv64)
      (div64State s (s.reg .r0) xh 0#32 yh (1#32 <<< 31) n z c v) (Div64Result s) := by
    refine ends_lower hm ?_ (show 31 < 32 by omega) ⟨(s.reg .r0).toNat, (s.reg .r0).isLt,
      (Nat.mul_one _).symm, Quot.start (n := xh.toNat * 2 ^ 32 + (s.reg .r0).toNat) ?_⟩ n z c v
    · intro xl xh' yl ip hyl hxh' n z c v
      exact div64Result_of_eq (by rw [hyl, hdiv]) (by rw [hxh', hmod])
    · have hlt := (s.reg .r0).isLt
      have hmul : (xh.toNat + 1) * 2 ^ 32 ≤ (s.reg .r4).toNat * 2 ^ 32 :=
        Nat.mul_le_mul_right _ (hxh ▸ Nat.mod_lt _ (by omega))
      rw [Nat.add_mul] at hmul
      omega
  have hnext (n z v : Bool) : cpu.Ends doDiv64 ((Asm.goto (.num 3 1) doDiv64).drop 3)
      (div64State s (s.reg .r0) xh 0#32 yh ip n z true v) (Div64Result s) := by
    refine ends_op_neg rfl (ends_ret_neg rfl (ends_al ?_))
    rw [exec_mov, div64State_set_ip]
    exact Asm.ends_fall rfl (hloop _ _ _ _)
  refine ends_al ?_
  rw [exec_cmp, value_imm]
  refine ends_al ?_
  rw [exec_mov]
  change cpu.Ends doDiv64 _ (Cpu.set (div64State s _ xh yl yh ip _ (decide (xh = 0#32))
    (decide (0#32 ≤ xh)) _) .r2 0#32) _
  have hle : 0#32 ≤ xh := BitVec.le_def.2 (Nat.zero_le _)
  rw [div64State_set_r2, decide_eq_true hle]
  by_cases hz : xh = 0#32
  · rw [decide_eq_true hz]
    refine ends_op_pos rfl ?_
    rw [exec_cmp, value_reg]
    change cpu.Ends doDiv64 _ (div64State s (s.reg .r0) xh 0#32 yh ip _ _
      (decide (s.reg .r4 ≤ s.reg .r0)) _) _
    by_cases hle : s.reg .r4 ≤ s.reg .r0
    · rw [decide_eq_true hle]
      exact hnext _ _ _
    · have hlt := BitVec.lt_def.1 (BitVec.not_le.1 hle)
      rw [decide_eq_false hle]
      refine ends_op_pos rfl ?_
      rw [exec_mov, div64State_set_r1]
      refine ends_ret_pos rfl (div64Result_of_eq ?_ ?_)
      · rw [hdiv, hz, BitVec.toNat_zero, Nat.zero_mul, Nat.zero_add, Nat.div_eq_of_lt hlt]
      · rw [hmod, hz, BitVec.toNat_zero, Nat.zero_mul, Nat.zero_add, Nat.mod_eq_of_lt hlt]
        rfl
  · rw [decide_eq_false hz]
    exact ends_op_neg rfl (hnext _ _ _)

/-- A divisor that is not 1 and not a power of 2. -/
theorem doDiv64_general (hm : 1 < (s.reg .r4).toNat) (ip : BitVec 32) (n z c v : Bool) :
    cpu.Ends doDiv64 (doDiv64.drop 4)
      (div64State s (s.reg .r0) (s.reg .r1) (s.reg .r2) (s.reg .r3) ip n z c v)
      (Div64Result s) := by
  refine ends_al ?_
  rw [exec_cmp, value_reg]
  refine ends_al ?_
  rw [exec_mov]
  change cpu.Ends doDiv64 _ (Cpu.set (div64State s _ (s.reg .r1) _ _ ip _ _
    (decide (s.reg .r4 ≤ s.reg .r1)) _) .r3 0#32) _
  rw [div64State_set_r3]
  by_cases hle : s.reg .r4 ≤ s.reg .r1
  · refine ends_branch_neg (congrArg Bool.not (decide_eq_true hle)) (ends_al ?_)
    rw [exec_mov, div64State_set_r2]
    refine ends_al ?_
    rw [exec_mov, div64State_set_ip]
    refine Asm.ends_fall rfl ?_
    change cpu.Ends doDiv64 (Asm.goto (.num 1 1) doDiv64) (div64State s (s.reg .r0) (s.reg .r1)
      (s.reg .r4) 0#32 (1#32 <<< 0) _ _ _ _) _
    rw [← upper_file]
    refine ends_align upperRegs (show 0 < (s.reg .r4).toNat by omega) 0x80000000#32
      (show 0 < 1 by omega) (by decide) (· <<< 1) (1#32 <<< ·) (fun _ => rfl)
      (fun k => (BitVec.shiftLeft_add _ _ _).symm) (fun _ => True) (fun _ _ _ _ _ _ => trivial)
      rfl ?_ (Nat.mul_one _).symm trivial _ _ _ _
    intro k d hd _ halign n z c v
    rw [upper_file]
    refine Asm.ends_fall rfl ?_
    have hstart : Quot (s.reg .r1).toNat (s.reg .r4).toNat (k + 1) (0#32).toNat (s.reg .r1).toNat :=
      Quot.start (lt_of_aligned (by omega) hd halign)
    refine ends_upper ?_ (lt_of_toNat_eq (by omega) hd) hd hstart n z c v
    intro xh yl yh ip hyh hxh n z c v
    exact ends_lower_word hm hyh hxh n z c v
  · have hlt := BitVec.lt_def.1 (BitVec.not_le.1 hle)
    refine ends_branch_pos (congrArg Bool.not (decide_eq_false hle)) ?_
    refine ends_lower_word hm ?_ ?_ _ _ _ _
    · rw [Nat.div_eq_of_lt hlt]
      rfl
    · rw [Nat.mod_eq_of_lt hlt]

/-- The quotient and the remainder for a power of 2, as shifts. -/
theorem div_shift {k : ℕ} (hk : k < 32) (xh xl : BitVec 32) :
    (xh >>> k).toNat * 2 ^ 32 + (xl >>> k ||| xh <<< (32 - k)).toNat =
        (xh.toNat * 2 ^ 32 + xl.toNat) / 2 ^ k ∧
      ((xl <<< (32 - k)) >>> (32 - k)).toNat = (xh.toNat * 2 ^ 32 + xl.toNat) % 2 ^ k := by
  have hpow : 2 ^ 32 = 2 ^ k * 2 ^ (32 - k) := by
    rw [← pow_add, Nat.add_sub_cancel' hk.le]
  have hlow : xl.toNat / 2 ^ k < 2 ^ (32 - k) := by
    rw [Nat.div_lt_iff_lt_mul (Nat.two_pow_pos k), Nat.mul_comm, ← hpow]
    exact xl.isLt
  have hhigh : (xh <<< (32 - k)).toNat = 2 ^ (32 - k) * (xh.toNat % 2 ^ k) := by
    rw [BitVec.toNat_shiftLeft, Nat.shiftLeft_eq, hpow, Nat.mul_mod_mul_right, Nat.mul_comm]
  constructor
  · rw [BitVec.toNat_or, hhigh, BitVec.toNat_ushiftRight, BitVec.toNat_ushiftRight,
      Nat.shiftRight_eq_div_pow, Nat.shiftRight_eq_div_pow, Nat.or_comm,
      ← Nat.two_pow_add_eq_or_of_lt hlow]
    have hsplit : xh.toNat * 2 ^ 32 + xl.toNat =
        xl.toNat + 2 ^ k * (xh.toNat * 2 ^ (32 - k)) := by
      rw [hpow]
      ring
    rw [hsplit, Nat.add_mul_div_left _ _ (Nat.two_pow_pos k)]
    calc xh.toNat / 2 ^ k * 2 ^ 32 + (2 ^ (32 - k) * (xh.toNat % 2 ^ k) + xl.toNat / 2 ^ k)
        = xl.toNat / 2 ^ k + (xh.toNat % 2 ^ k + 2 ^ k * (xh.toNat / 2 ^ k)) * 2 ^ (32 - k) := by
          rw [hpow]
          ring
      _ = xl.toNat / 2 ^ k + xh.toNat * 2 ^ (32 - k) := by rw [Nat.mod_add_div]
  · rw [BitVec.toNat_ushiftRight, BitVec.toNat_shiftLeft, Nat.shiftLeft_eq, hpow,
      Nat.mul_mod_mul_right, Nat.shiftRight_eq_div_pow, Nat.mul_div_cancel _ (Nat.two_pow_pos _),
      Nat.mul_left_comm, Nat.mul_add_mod]

/-- A divisor that is a power of 2. -/
theorem doDiv64_power {k : ℕ} (hk : k < 32) (hpos : 0 < k) (hd : s.reg .r4 = 1#32 <<< k)
    (ip : BitVec 32) (n z c v : Bool) :
    cpu.Ends doDiv64 (Asm.goto (.num 8 1) doDiv64)
      (div64State s (s.reg .r0) (s.reg .r1) (s.reg .r2) (s.reg .r3) ip n z c v)
      (Div64Result s) := by
  have hbase : (s.reg .r4).toNat = 2 ^ k := by rw [hd, toNat_bit hk]
  obtain ⟨hdiv, hmod⟩ := div_shift hk (s.reg .r1) (s.reg .r0)
  have hsub : (32#32 - BitVec.ofNat 32 k).toNat = 32 - k := by
    rw [BitVec.toNat_sub, BitVec.toNat_ofNat, BitVec.toNat_ofNat]
    omega
  have hshift : (BitVec.ofNat 32 k).toNat % 256 = k := by
    rw [BitVec.toNat_ofNat]
    omega
  have hshift' : (32#32 - BitVec.ofNat 32 k).toNat % 256 = 32 - k := by omega
  have hlast : ∀ k' o, o + k' = k → k' < 16 → ∀ n z c v, cpu.Ends doDiv64
      ((Asm.goto (.num 8 1) doDiv64).drop 5)
      (div64State s (s.reg .r0) (s.reg .r1) (1#32 <<< k') (s.reg .r3) (BitVec.ofNat 32 o) n z c v)
      (Div64Result s) := by
    intro k₁ o₁ ho₁ hk₁ n z c v
    rw [← upper_file]
    refine ends_order upperRegs (show 8 < 32 by omega) (by omega) hk₁ ?_ n z c v
    intro k₂ o₂ ho₂ hk₂
    refine ends_order upperRegs (show 4 < 32 by omega) (by omega) hk₂ ?_
    intro k₃ o₃ ho₃ hk₃
    refine ends_order_last upperRegs hk₃ ?_
    intro d n z c v
    rw [upper_file, show o₃ + k₃ = k by omega]
    refine ends_al ?_
    rw [exec_mov]
    change cpu.Ends doDiv64 _ (Cpu.set (div64State s _ _ d _ (BitVec.ofNat 32 k) n z c v) .r3
      (s.reg .r1 >>> ((BitVec.ofNat 32 k).toNat % 256))) _
    rw [hshift, div64State_set_r3]
    refine ends_al ?_
    rw [exec_mov]
    change cpu.Ends doDiv64 _ (Cpu.set (div64State s _ _ d _ (BitVec.ofNat 32 k) n z c v) .r2
      (s.reg .r0 >>> ((BitVec.ofNat 32 k).toNat % 256))) _
    rw [hshift, div64State_set_r2]
    refine ends_al ?_
    rw [exec_rsb, div64State_set_ip]
    refine ends_al ?_
    rw [exec_orr]
    change cpu.Ends doDiv64 _ (Cpu.set (div64State s _ _ (s.reg .r0 >>> k) _
      (32#32 - BitVec.ofNat 32 k) n z c v) .r2
      (s.reg .r0 >>> k ||| s.reg .r1 <<< ((32#32 - BitVec.ofNat 32 k).toNat % 256))) _
    rw [hshift', div64State_set_r2]
    refine ends_al ?_
    rw [exec_mov]
    change cpu.Ends doDiv64 _ (Cpu.set (div64State s _ (s.reg .r1) _ _
      (32#32 - BitVec.ofNat 32 k) n z c v) .r1
      (s.reg .r0 <<< ((32#32 - BitVec.ofNat 32 k).toNat % 256))) _
    rw [hshift', div64State_set_r1]
    refine ends_al ?_
    rw [exec_mov]
    change cpu.Ends doDiv64 _ (Cpu.set (div64State s _ (s.reg .r0 <<< (32 - k)) _ _
      (32#32 - BitVec.ofNat 32 k) n z c v) .r1
      ((s.reg .r0 <<< (32 - k)) >>> ((32#32 - BitVec.ofNat 32 k).toNat % 256))) _
    rw [hshift', div64State_set_r1]
    exact ends_ret_al (div64Result_of_eq (hbase ▸ hdiv) (hbase ▸ hmod))
  refine ends_al ?_
  rw [exec_mov, div64State_set_r2]
  refine ends_al ?_
  rw [exec_cmp]
  refine ends_al ?_
  rw [exec_mov]
  change cpu.Ends doDiv64 _ (Cpu.set (div64State s _ _ (s.reg .r4) _ _ _ _
    (decide (1#32 <<< 16 ≤ s.reg .r4)) _) .ip 0#32) _
  rw [div64State_set_ip, hd]
  by_cases hle : 16 ≤ k
  · rw [decide_eq_true ((bit_le_bit (show 16 < 32 by omega) hk).2 hle)]
    refine ends_op_pos rfl ?_
    rw [exec_mov, div64State_set_r2]
    refine ends_op_pos rfl ?_
    rw [exec_mov, div64State_set_ip]
    change cpu.Ends doDiv64 _ (div64State s _ _ ((1#32 <<< k) >>> 16) _ (BitVec.ofNat 32 16)
      _ _ _ _) _
    rw [bit_shiftRight hle hk]
    exact hlast (k - 16) 16 (by omega) (by omega) _ _ _ _
  · rw [decide_eq_false fun h => hle ((bit_le_bit (show 16 < 32 by omega) hk).1 h)]
    exact ends_op_neg rfl (ends_op_neg rfl (hlast k 0 (by omega) (by omega) _ _ _ _))

/-- A divisor of 1. -/
theorem doDiv64_one (hone : s.reg .r4 = 1#32) (ip : BitVec 32) (n c v : Bool) :
    cpu.Ends doDiv64 (Asm.goto (.num 9 1) doDiv64)
      (div64State s (s.reg .r0) (s.reg .r1) (s.reg .r2) (s.reg .r3) ip n true c v)
      (Div64Result s) := by
  refine ends_op_pos rfl ?_
  rw [exec_mov, div64State_set_r2]
  refine ends_op_pos rfl ?_
  rw [exec_mov, div64State_set_r3]
  refine ends_op_pos rfl ?_
  rw [exec_mov, div64State_set_r1]
  refine ends_ret_pos rfl (div64Result_of_eq ?_ ?_)
  · rw [hone]
    exact (Nat.div_one _).symm
  · rw [hone]
    exact (Nat.mod_one _).symm

theorem doDiv64_ends (hs : s.reg .r4 ≠ 0#32) : cpu.Ends doDiv64 doDiv64 s (Div64Result s) := by
  have hpos : 0 < (s.reg .r4).toNat := Nat.pos_of_ne_zero fun h => hs (BitVec.eq_of_toNat_eq h)
  refine ends_al ?_
  rw [exec_subs, value_imm, set_ip_eq]
  by_cases hle : s.reg .r4 ≤ 1#32
  · have hone : s.reg .r4 = 1#32 := by
      have hle := BitVec.le_def.1 hle
      exact BitVec.eq_of_toNat_eq (Nat.le_antisymm hle hpos)
    refine ends_branch_pos ((not_le_or_eq _ _).trans (decide_eq_true hle)) ?_
    rw [BitVec.ofNat_eq_ofNat, decide_eq_true hone]
    exact doDiv64_one hone _ _ _ _
  · have hm : 1 < (s.reg .r4).toNat := BitVec.lt_def.1 (BitVec.not_le.1 hle)
    refine ends_branch_neg ((not_le_or_eq _ _).trans (decide_eq_false hle)) (ends_al ?_)
    change cpu.Ends doDiv64 _ (div64State s (s.reg .r0) (s.reg .r1) (s.reg .r2) (s.reg .r3)
      (s.reg .r4 - 1#32) _ ((s.reg .r4 - 1#32) &&& s.reg .r4 == 0#32) _ _) _
    by_cases hpow : (s.reg .r4 - 1#32) &&& s.reg .r4 = 0#32
    · obtain ⟨k, hk, hbit⟩ := exists_bit hs ((BitVec.and_comm _ _).trans hpow)
      refine ends_branch_pos (beq_iff_eq.2 hpow) (doDiv64_power hk ?_ hbit _ _ _ _ _)
      refine Nat.pos_of_ne_zero ?_
      rintro rfl
      rw [hbit] at hm
      exact absurd hm (by decide)
    · exact ends_branch_neg (beq_eq_false_iff_ne.2 hpow) (doDiv64_general hm _ _ _ _ _)

end

end Ucore.Arm
