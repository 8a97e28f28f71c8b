import Ucore.Arm.Sdiv

/-!
# The signed remainder

`__modsi3` has the remainder of the absolute values, with the sign of the dividend, which is kept in
`ip`.  `ARM_MOD_BODY` does not need the quotient, so it only counts the bits that are left, in
`order`: it is `k - 3` if the trials go on with the bit `k`, since there have to be 4 of them for
another round.  The last trials, for which there are not so many bits, are made one by one.

A trial is that of `Ucore.Lib.Restoring`, with a quotient that nobody keeps (`Quot.ends_sub`).  So
unlike in `__umodsi3` nothing is ever subtracted that has to be added again.

* `ends_smodLoop_round` — four trials, with the test of `order` behind them (`ends_smodNext`), which
  leaves the loop for one of three places: another round, the last trials, or the end, if nothing is
  left or no bits are left;
* `ends_smodLoop` — the loop, on the number of the bit;
* `ends_smodLast` — the last trials, of which there are up to three: the text jumps into the middle
  of them, by the flags of one addition to `order` (`lastTrials`);
* `ends_modBody` — `ARM_MOD_BODY`.

The two tests of the routine, for a divisor that is not less than the dividend and for a power of 2,
are `modsi3_compared`, and `modsi3_signed` is everything behind the absolute values.  The result is
`modsi3_ends`.
-/

set_option autoImplicit false

namespace Ucore.Arm

/-- A signed remainder, by the absolute values. -/
theorem srem_eq_abs (n d : BitVec 32) :
    n.srem d = if n.msb then -(n.abs % d.abs) else n.abs % d.abs := by
  rw [BitVec.srem_eq, BitVec.abs_eq, BitVec.abs_eq]
  cases n.msb <;> cases d.msb <;> rfl

/-- The registers of `__modsi3`, with one that it does not use in the place of the quotient. -/
def smodRegs : DivRegs := ⟨.r0, .r1, .r3, .r2, by decide⟩

/-- `order`, before the trial of the bit `k`. -/
def order (k : ℕ) : BitVec 32 := BitVec.ofNat 32 k - 3#32

theorem three_le_toInt (k : Fin 32) : (3#32).toInt ≤ (BitVec.ofNat 32 k).toInt ↔ 3 ≤ k.val := by
  revert k
  decide

theorem four_le_toInt_order (k : Fin 32) : (4#32).toInt ≤ (order k).toInt ↔ 7 ≤ k.val := by
  revert k
  decide

theorem order_sub_four {k : ℕ} (hk : 4 ≤ k) : order k - 4#32 = order (k - 4) := by
  obtain ⟨j, rfl⟩ := Nat.exists_eq_add_of_le' hk
  rw [Nat.add_sub_cancel, order, order, BitVec.ofNat_add, BitVec.sub_sub, BitVec.add_comm 3#32,
    ← BitVec.sub_sub, BitVec.add_sub_cancel]

theorem order_and_three (k : Fin 32) (hk : 3 ≤ k.val) (hk' : k.val < 7) :
    (order k - 4#32) &&& 3#32 = 0#32 ↔ k.val = 3 := by
  revert k
  decide

section

open Line Instr Operand

variable {code text : Code} {f : Reg → BitVec 32} {mem : BitVec 32 → BitVec 32} {q : BitVec 32}
  {Q : Cpu → Prop} {n m : ℕ}

/-- A trial of the bit `k - i`. -/
theorem Quot.ends_sub {k i q' : ℕ} {a d b : BitVec 32} (h : Quot n m (k + 1 - i) q' a.toNat)
    (hd : d.toNat = m * 2 ^ k) (hi : i ≤ k) {divisor : Operand}
    (hdivisor : ∀ s, (divisor.value s).1 = s.reg smodRegs.divisor >>> i)
    (hnext : ∀ a q', Quot n m (k + 1 - (i + 1)) q' a.toNat → ∀ n' z c v,
      cpu.Ends code text ⟨smodRegs.file f a d q b, n', z, c, v, mem⟩ Q) (n' z c v : Bool) :
    cpu.Ends code (op .al (cmp .r0 divisor) :: op .cs (sub .r0 .r0 divisor) :: text)
      ⟨smodRegs.file f a d q b, n', z, c, v, mem⟩ Q := by
  rw [show k + 1 - i = k - i + 1 by omega] at h
  rw [show k + 1 - (i + 1) = k - i by omega] at hnext
  refine Arm.ends_sub smodRegs i hdivisor ?_ n' z c v
  have hdi := toNat_divisor hd hi
  by_cases hle : d >>> i ≤ a
  · rw [if_pos hle]
    refine hnext _ (q' + 2 ^ (k - i)) ?_
    rw [BitVec.toNat_sub_of_le hle, hdi]
    exact h.trial_pos (hdi ▸ BitVec.le_def.1 hle)
  · rw [if_neg hle]
    exact hnext _ q' (h.trial_neg (hdi ▸ BitVec.lt_def.1 (BitVec.not_le.1 hle)))

/-- The lines of the loop. -/
def smodLoop : Code := [
  op .al (cmp .r0 (reg .r1)),
  op .cs (sub .r0 .r0 (reg .r1)),
  op .al (cmp .r0 (shift .lsr .r1 1)),
  op .cs (sub .r0 .r0 (shift .lsr .r1 1)),
  op .al (cmp .r0 (shift .lsr .r1 2)),
  op .cs (sub .r0 .r0 (shift .lsr .r1 2)),
  op .al (cmp .r0 (shift .lsr .r1 3)),
  op .cs (sub .r0 .r0 (shift .lsr .r1 3)),
  op .al (cmp .r0 (imm 1)),
  op .al (mov false .r1 (shift .lsr .r1 4)),
  op .ge (subs .r2 .r2 (imm 4)),
  branch .ge (.num 1 3),
  op .al (tst .r2 (imm 3)),
  op .ne (teq .r0 (imm 0)),
  branch .eq (.num 5 1)]

/-- **The end of a round.**  There is another one if something is left, and 4 bits.  If there are
fewer bits their trials are made behind the loop, and else the remainder is what is left. -/
theorem ends_smodNext {k q' : ℕ} {a d : BitVec 32} (hk : 3 ≤ k) (hk' : k < 32)
    (hd : d.toNat = m * 2 ^ k) (h : Quot n m (k + 1 - 4) q' a.toNat)
    (hdone : ∀ a d b, a.toNat = n % m → ∀ n' z c v,
      cpu.Ends code (Asm.goto (.num 5 1) code) ⟨smodRegs.file f a d q b, n', z, c, v, mem⟩ Q)
    (hloop : 7 ≤ k → ∀ a q', Quot n m (k - 4 + 1) q' a.toNat → ∀ n' z c v,
      cpu.Ends code (Asm.goto (.num 1 3) code)
        ⟨smodRegs.file f a (d >>> 4) q (order (k - 4)), n', z, c, v, mem⟩ Q)
    (hlast : 4 ≤ k → k < 7 → ∀ a q', Quot n m (k - 4 + 1) q' a.toNat → ∀ n' z c v,
      cpu.Ends code text ⟨smodRegs.file f a (d >>> 4) q (order (k - 4)), n', z, c, v, mem⟩ Q)
    (n' z c v : Bool) :
    cpu.Ends code (smodLoop.drop 8 ++ text)
      ⟨smodRegs.file f a d q (order k), n', z, c, v, mem⟩ Q := by
  have hset (x : BitVec 32) : Function.update (smodRegs.file f a d q (order k)) .r1 x =
      smodRegs.file f a x q (order k) := smodRegs.update_divisor ..
  have hset' (x : BitVec 32) : Function.update (smodRegs.file f a (d >>> 4) q (order k)) .r2 x =
      smodRegs.file f a (d >>> 4) q x := smodRegs.update_curbit ..
  have hpos : (1#32).toInt ≤ a.toInt ↔ a ≠ 0#32 := by
    have hlt := h.lt
    have hsmall := d.isLt
    have hpow : m * 2 ^ (k + 1 - 4) * 2 ^ 3 = d.toNat := by
      rw [hd, Nat.mul_assoc, ← pow_add, show k + 1 - 4 + 3 = k by omega]
    have hzero : a.toNat = 0 ↔ a = 0#32 := BitVec.toNat_inj (y := 0#32)
    rw [BitVec.toInt_eq_toNat_of_lt (x := a) (by omega), Ne, ← hzero]
    change (1 : ℤ) ≤ a.toNat ↔ _
    omega
  refine ends_al ?_
  rw [exec_cmp]
  refine ends_al ?_
  rw [exec_mov, Cpu.set]
  change cpu.Ends code _ ⟨Function.update (smodRegs.file f a d q (order k)) .r1 (d >>> 4),
    (a - 1#32).msb, _, _, subOverflow a 1#32, mem⟩ Q
  rw [hset]
  have hge := sub_msb_beq_subOverflow a 1#32
  obtain rfl | ha := eq_or_ne a 0#32
  · have hzero : (0#32).toNat = n % m := (Quot.done h).2.symm
    rw [decide_eq_false (fun hle => hpos.1 hle rfl)] at hge
    refine ends_op_neg hge (ends_branch_neg hge (ends_al ?_))
    change cpu.Ends code _ ⟨smodRegs.file f 0#32 (d >>> 4) q (order k), _,
      order k &&& 3#32 == 0#32, _, _, mem⟩ Q
    by_cases hand : order k &&& 3#32 = 0#32
    · rw [beq_iff_eq.2 hand]
      exact ends_op_neg rfl (ends_branch_pos rfl (hdone _ _ _ hzero _ _ _ _))
    · rw [beq_eq_false_iff_ne.2 hand]
      exact ends_op_pos rfl (ends_branch_pos (beq_iff_eq.2 (BitVec.xor_self (x := 0#32)))
        (hdone _ _ _ hzero _ _ _ _))
  · rw [decide_eq_true (hpos.2 ha)] at hge
    refine ends_op_pos hge ?_
    rw [exec_subs]
    change cpu.Ends code _ ⟨Function.update (smodRegs.file f a (d >>> 4) q (order k)) .r2
      (order k - 4#32), (order k - 4#32).msb, _, _, subOverflow (order k) 4#32, mem⟩ Q
    rw [hset']
    have hge' := sub_msb_beq_subOverflow (order k) 4#32
    by_cases hseven : 7 ≤ k
    · rw [decide_eq_true ((four_le_toInt_order ⟨k, hk'⟩).2 hseven)] at hge'
      refine ends_branch_pos hge' ?_
      rw [order_sub_four (by omega)]
      exact hloop hseven a q' (show k - 4 + 1 = k + 1 - 4 by omega ▸ h) _ _ _ _
    · rw [decide_eq_false fun hle => hseven ((four_le_toInt_order ⟨k, hk'⟩).1 hle)] at hge'
      have hand := order_and_three ⟨k, hk'⟩ hk (Nat.lt_of_not_le hseven)
      refine ends_branch_neg hge' (ends_al ?_)
      change cpu.Ends code _ ⟨smodRegs.file f a (d >>> 4) q (order k - 4#32), _,
        (order k - 4#32) &&& 3#32 == 0#32, _, _, mem⟩ Q
      by_cases hthree : k = 3
      · -- all bits are found
        rw [beq_iff_eq.2 (hand.2 hthree)]
        subst hthree
        exact ends_op_neg rfl (ends_branch_pos rfl (hdone _ _ _ h.exact.2.symm _ _ _ _))
      · rw [beq_eq_false_iff_ne.2 fun hzero => hthree (hand.1 hzero), order_sub_four (by omega)]
        refine ends_op_pos rfl (ends_branch_neg (beq_eq_false_iff_ne.2 ?_) ?_)
        · exact fun hzero => ha ((BitVec.xor_zero (x := a)).symm.trans hzero)
        · exact hlast (by omega) (by omega) a q' (show k - 4 + 1 = k + 1 - 4 by omega ▸ h) _ _ _ _

/-- One round of the loop. -/
theorem ends_smodLoop_round {k q' : ℕ} {a d : BitVec 32} (hk : 3 ≤ k) (hk' : k < 32)
    (hd : d.toNat = m * 2 ^ k) (hq : Quot n m (k + 1) q' a.toNat)
    (hdone : ∀ a d b, a.toNat = n % m → ∀ n' z c v,
      cpu.Ends code (Asm.goto (.num 5 1) code) ⟨smodRegs.file f a d q b, n', z, c, v, mem⟩ Q)
    (hloop : 7 ≤ k → ∀ a q', Quot n m (k - 4 + 1) q' a.toNat → ∀ n' z c v,
      cpu.Ends code (Asm.goto (.num 1 3) code)
        ⟨smodRegs.file f a (d >>> 4) q (order (k - 4)), n', z, c, v, mem⟩ Q)
    (hlast : 4 ≤ k → k < 7 → ∀ a q', Quot n m (k - 4 + 1) q' a.toNat → ∀ n' z c v,
      cpu.Ends code text ⟨smodRegs.file f a (d >>> 4) q (order (k - 4)), n', z, c, v, mem⟩ Q)
    (n' z c v : Bool) :
    cpu.Ends code (smodLoop ++ text) ⟨smodRegs.file f a d q (order k), n', z, c, v, mem⟩ Q := by
  refine Quot.ends_sub (i := 0) hq hd (Nat.zero_le k)
    (fun _ => (BitVec.ushiftRight_zero _).symm) ?_ _ _ _ _
  intro a₁ q₁ h₁
  refine Quot.ends_sub h₁ hd (by omega) (fun _ => rfl) ?_
  intro a₂ q₂ h₂
  refine Quot.ends_sub h₂ hd (by omega) (fun _ => rfl) ?_
  intro a₃ q₃ h₃
  refine Quot.ends_sub h₃ hd (by omega) (fun _ => rfl) ?_
  intro a q' h
  exact ends_smodNext hk hk' hd h hdone hloop hlast

/-- **The loop**: the remainder is found, or less than 4 bits are left. -/
theorem ends_smodLoop (hl : Asm.goto (.num 1 3) code = smodLoop ++ text)
    (hdone : ∀ a d b, a.toNat = n % m → ∀ n' z c v,
      cpu.Ends code (Asm.goto (.num 5 1) code) ⟨smodRegs.file f a d q b, n', z, c, v, mem⟩ Q)
    (hlast : ∀ k < 3, ∀ a d q', d.toNat = m * 2 ^ k → Quot n m (k + 1) q' a.toNat → ∀ n' z c v,
      cpu.Ends code text ⟨smodRegs.file f a d q (order k), n', z, c, v, mem⟩ Q)
    {k q' : ℕ} {a d : BitVec 32} (hk : 3 ≤ k) (hk' : k < 32) (hd : d.toNat = m * 2 ^ k)
    (hq : Quot n m (k + 1) q' a.toNat) (n' z c v : Bool) :
    cpu.Ends code (Asm.goto (.num 1 3) code)
      ⟨smodRegs.file f a d q (order k), n', z, c, v, mem⟩ Q := by
  refine Asm.ends_loop (Label.num 1 3) (fun k (s : Cpu) => ∃ a d q' n' z c v, 3 ≤ k ∧ k < 32 ∧
    d.toNat = m * 2 ^ k ∧ Quot n m (k + 1) q' a.toNat ∧
    s = ⟨smodRegs.file f a d q (order k), n', z, c, v, mem⟩) ?_
    ⟨a, d, q', n', z, c, v, hk, hk', hd, hq, rfl⟩
  rintro k _ ⟨a, d, q', n', z, c, v, hk, hk', hd, hq, rfl⟩ ih
  rw [hl]
  refine ends_smodLoop_round hk hk' hd hq hdone ?_ ?_ n' z c v
  · intro hseven a q' hq n' z c v
    exact ih (k - 4) _ (by omega)
      ⟨a, _, q', n', z, c, v, by omega, by omega, toNat_divisor hd (by omega), hq, rfl⟩
  · intro hfour hseven a q' hq n' z c v
    exact hlast (k - 4) (by omega) a _ q' (toNat_divisor hd hfour) hq n' z c v

/-- The number of the last trials, less 2. -/
def lastTrials (k : ℕ) : BitVec 32 × Bool × Bool := addWithCarry (order k) 2#32 false

/-- The last trials, for less than 4 bits. -/
def smodLast : Code := [
  op .al (cmn .r2 (imm 2)),
  branch .lt (.num 4 1),
  branch .eq (.num 3 1),
  op .al (cmp .r0 (reg .r1)),
  op .cs (sub .r0 .r0 (reg .r1)),
  op .al (mov false .r1 (shift .lsr .r1 1)),
  label (.num 3 1),
  op .al (cmp .r0 (reg .r1)),
  op .cs (sub .r0 .r0 (reg .r1)),
  op .al (mov false .r1 (shift .lsr .r1 1)),
  label (.num 4 1),
  op .al (cmp .r0 (reg .r1)),
  op .cs (sub .r0 .r0 (reg .r1)),
  label (.num 5 1)]

theorem ends_smodLast (hl₃ : Asm.goto (.num 3 1) code = smodLast.drop 7 ++ text)
    (hl₄ : Asm.goto (.num 4 1) code = smodLast.drop 11 ++ text)
    (h : ∀ a d b, a.toNat = n % m → ∀ n' z c v,
      cpu.Ends code text ⟨smodRegs.file f a d q b, n', z, c, v, mem⟩ Q)
    {k q' : ℕ} {a d : BitVec 32} (hk : k < 3) (hd : d.toNat = m * 2 ^ k)
    (hq : Quot n m (k + 1) q' a.toNat) (n' z c v : Bool) :
    cpu.Ends code (smodLast ++ text) ⟨smodRegs.file f a d q (order k), n', z, c, v, mem⟩ Q := by
  have hfour : ∀ a d q' b, d.toNat = m * 2 ^ 0 → Quot n m 1 q' a.toNat → ∀ n' z c v,
      cpu.Ends code (Asm.goto (.num 4 1) code) ⟨smodRegs.file f a d q b, n', z, c, v, mem⟩ Q := by
    intro a d q' b hd hq
    rw [hl₄]
    refine Quot.ends_sub (i := 0) hq hd (Nat.zero_le _)
      (fun _ => (BitVec.ushiftRight_zero _).symm) ?_
    intro a q' hq n' z c v
    exact (Asm.ends_label _).2 (h a d b hq.exact.2.symm n' z c v)
  have hthree : ∀ a d q' b, d.toNat = m * 2 ^ 1 → Quot n m 2 q' a.toNat → ∀ n' z c v,
      cpu.Ends code (Asm.goto (.num 3 1) code) ⟨smodRegs.file f a d q b, n', z, c, v, mem⟩ Q := by
    intro a d q' b hd hq
    rw [hl₃]
    refine Quot.ends_sub (i := 0) hq hd (Nat.zero_le _)
      (fun _ => (BitVec.ushiftRight_zero _).symm) ?_
    intro a q' hq n' z c v
    refine ends_al ?_
    rw [exec_mov, Cpu.set]
    change cpu.Ends code _ ⟨Function.update (smodRegs.file f a d q b) smodRegs.divisor (d >>> 1),
      _, _, _, _, mem⟩ Q
    rw [smodRegs.update_divisor]
    refine Asm.ends_fall hl₄ ?_
    exact hfour a _ q' b (toNat_divisor hd (Nat.le_refl 1)) hq n' z c v
  refine ends_al ?_
  change cpu.Ends code _ ⟨smodRegs.file f a d q (order k), (lastTrials k).1.msb,
    (lastTrials k).1 == 0#32, (lastTrials k).2.1, (lastTrials k).2.2, mem⟩ Q
  rcases (show k = 0 ∨ k = 1 ∨ k = 2 by omega) with rfl | rfl | rfl
  · have hlt : ((lastTrials 0).1.msb != (lastTrials 0).2.2) = true := by decide
    exact ends_branch_pos hlt (hfour a d q' _ hd hq _ _ _ _)
  · have hge : ((lastTrials 1).1.msb != (lastTrials 1).2.2) = false := by decide
    have hz : ((lastTrials 1).1 == 0#32) = true := by decide
    exact ends_branch_neg hge (ends_branch_pos hz (hthree a d q' _ hd hq _ _ _ _))
  · have hge : ((lastTrials 2).1.msb != (lastTrials 2).2.2) = false := by decide
    have hz : ((lastTrials 2).1 == 0#32) = false := by decide
    refine ends_branch_neg hge (ends_branch_neg hz ?_)
    refine Quot.ends_sub (i := 0) hq hd (Nat.zero_le _)
      (fun _ => (BitVec.ushiftRight_zero _).symm) ?_ _ _ _ _
    intro a q' hq n' z c v
    refine ends_al ?_
    rw [exec_mov, Cpu.set]
    change cpu.Ends code _ ⟨Function.update (smodRegs.file f a d q (order 2)) smodRegs.divisor
      (d >>> 1), _, _, _, _, mem⟩ Q
    rw [smodRegs.update_divisor]
    refine Asm.ends_fall hl₃ ?_
    exact hthree a _ q' _ (toNat_divisor hd (show 1 ≤ 2 by omega)) hq n' z c v

/-- **`ARM_MOD_BODY`** leaves the remainder. -/
theorem ends_modBody (hl₁ : Asm.goto (.num 1 1) code =
      ((armModBody .r0 .r1 .r2).drop 2).take 6 ++ Asm.goto (.num 1 2) code)
    (hl₂ : Asm.goto (.num 1 2) code =
      ((armModBody .r0 .r1 .r2).drop 8).take 8 ++ Asm.goto (.num 1 3) code)
    (hl₃ : Asm.goto (.num 1 3) code = smodLoop ++ label (.num 2 1) :: Asm.goto (.num 2 1) code)
    (hl₄ : Asm.goto (.num 2 1) code = smodLast ++ text)
    (hl₅ : Asm.goto (.num 3 1) code = smodLast.drop 7 ++ text)
    (hl₆ : Asm.goto (.num 4 1) code = smodLast.drop 11 ++ text)
    (hl₇ : Asm.goto (.num 5 1) code = text) {a d b : BitVec 32} (hd : d ≠ 0#32)
    (h : ∀ d' b n z c v, cpu.Ends code text
      ⟨smodRegs.file f (a % d) d' q b, n, z, c, v, mem⟩ Q) (n z c v : Bool) :
    cpu.Ends code (armModBody .r0 .r1 .r2 ++ text)
      ⟨smodRegs.file f a d q b, n, z, c, v, mem⟩ Q := by
  have hpos : 0 < d.toNat := Nat.pos_of_ne_zero fun h => hd (BitVec.eq_of_toNat_eq h)
  have hdone : ∀ a' d' b, a'.toNat = a.toNat % d.toNat → ∀ n z c v, cpu.Ends code text
      ⟨smodRegs.file f a' d' q b, n, z, c, v, mem⟩ Q := by
    intro a' d' b ha' n z c v
    rw [← BitVec.toNat_umod, BitVec.toNat_inj] at ha'
    exact ha' ▸ h d' b n z c v
  have hlast : ∀ k < 3, ∀ a' d' q', d'.toNat = d.toNat * 2 ^ k →
      Quot a.toNat d.toNat (k + 1) q' a'.toNat → ∀ n z c v, cpu.Ends code
      (Asm.goto (.num 2 1) code) ⟨smodRegs.file f a' d' q (order k), n, z, c, v, mem⟩ Q := by
    intro k hk a' d' q' hd' hq n z c v
    rw [hl₄]
    exact ends_smodLast hl₅ hl₆ hdone hk hd' hq n z c v
  refine ends_al ?_
  rw [exec_mov, Cpu.set]
  change cpu.Ends code _ ⟨Function.update (smodRegs.file f a d q b) smodRegs.curbit
    (BitVec.ofNat 32 0), _, _, _, _, mem⟩ Q
  rw [smodRegs.update_curbit]
  refine Asm.ends_fall (by rw [hl₁, hl₂, hl₃, hl₄]; rfl) ?_
  refine ends_aligned smodRegs hpos (· + 4#32) (· + 1#32) (BitVec.ofNat 32 ·) (fun s => exec_add ..)
    (fun s => exec_add ..) (fun k => (BitVec.ofNat_add ..).symm) (fun k => (BitVec.ofNat_add ..).symm)
    hl₁ hl₂ ?_ (Nat.mul_one _).symm _ _ _ _
  intro k d' hd' halign n z c v
  have hk := lt_of_toNat_eq hpos hd'
  have hq := Quot.start (lt_of_aligned hpos hd' halign)
  refine ends_al ?_
  rw [exec_subs]
  change cpu.Ends code _ ⟨Function.update (smodRegs.file f a d' q (BitVec.ofNat 32 k))
    smodRegs.curbit (order k), (order k).msb, _, _, subOverflow (BitVec.ofNat 32 k) 3#32, mem⟩ Q
  rw [smodRegs.update_curbit]
  have hge := sub_msb_beq_subOverflow (BitVec.ofNat 32 k) 3#32
  by_cases hthree : 3 ≤ k
  · rw [decide_eq_true ((three_le_toInt ⟨k, hk⟩).2 hthree)] at hge
    refine ends_branch_neg (congrArg Bool.not hge) (Asm.ends_fall rfl ?_)
    refine ends_smodLoop hl₃ (hl₇ ▸ hdone) ?_ hthree hk hd' hq _ _ _ _
    intro k hk a d q' hd hq n' z c v
    exact (Asm.ends_label _).2 (hlast k hk a d q' hd hq n' z c v)
  · rw [decide_eq_false fun hle => hthree ((three_le_toInt ⟨k, hk⟩).1 hle)] at hge
    exact ends_branch_pos (congrArg Bool.not hge) (hlast k (by omega) a d' 0 hd' hq _ _ _ _)

end

/-! ## The routine -/

/-- What `__modsi3` leaves. -/
def SmodResult (s s' : Cpu) : Prop :=
  s'.reg .r0 = (s.reg .r0).srem (s.reg .r1) ∧ Returned [.r0, .r1, .r2, .ip] s s'

/-- The state of `__modsi3`, with the dividend in `ip`. -/
def smodState (s : Cpu) (a d b : BitVec 32) (n z c v : Bool) : Cpu :=
  ⟨smodRegs.file (Function.update s.reg .ip (s.reg .r0)) a d (s.reg .r3) b, n, z, c, v, s.mem⟩

section

open Line Instr Operand

variable {code text : Code} {s : Cpu}

theorem smodState_set_r0 (a d b x : BitVec 32) (n z c v : Bool) :
    (smodState s a d b n z c v).set .r0 x = smodState s x d b n z c v :=
  congrArg (fun f => Cpu.mk f n z c v s.mem) (smodRegs.update_dividend ..)

/-- The routine returns, with `r` in `r0`. -/
theorem smodResult_of_eq {d r b : BitVec 32} (hr : r = (s.reg .r0).srem (s.reg .r1))
    (n z c v : Bool) : SmodResult s ((smodState s r d b n z c v).set .pc (s.reg .lr)) := by
  refine ⟨hr, rfl, ?_, rfl⟩
  intro r hpc hr
  simp only [List.mem_cons, List.not_mem_nil, or_false, not_or] at hr
  by_cases hr₃ : r = .r3
  · subst hr₃
    rfl
  · simp [smodState, smodRegs, DivRegs.file, Cpu.set, hpc, hr, hr₃]

/-- The lines that give the remainder its sign. -/
theorem ends_smodSign {d b : BitVec 32} (n z c v : Bool) :
    cpu.Ends code
      (op .al (cmp .ip (imm 0)) :: op .mi (rsb .r0 .r0 (imm 0)) ::
        Line.ret .al (mov false .pc (reg .lr)) :: text)
      (smodState s ((s.reg .r0).abs % (s.reg .r1).abs) d b n z c v) (SmodResult s) := by
  have hsrem := srem_eq_abs (s.reg .r0) (s.reg .r1)
  refine ends_al ?_
  rw [exec_cmp, value_imm, BitVec.ofNat_eq_ofNat, BitVec.sub_zero]
  change cpu.Ends code _ (smodState s _ d b (s.reg .r0).msb _ _ _) _
  cases hmsb : (s.reg .r0).msb with
  | false =>
    rw [hmsb, if_neg Bool.false_ne_true] at hsrem
    exact ends_op_neg rfl (ends_ret_al (smodResult_of_eq hsrem.symm _ _ _ _))
  | true =>
    rw [hmsb, if_pos rfl] at hsrem
    refine ends_op_pos rfl (ends_ret_al ?_)
    rw [exec_rsb, smodState_set_r0, value_imm, BitVec.zero_sub]
    exact smodResult_of_eq hsrem.symm _ _ _ _

end

/-- The remainder for a divisor that is a power of 2. -/
theorem and_sub_one_eq_mod {k : ℕ} (hk : k < 32) (x : BitVec 32) :
    x &&& (1#32 <<< k - 1#32) = x % 1#32 <<< k := by
  have hsub : (1#32 <<< k - 1#32).toNat = 2 ^ k - 1 := by
    rw [BitVec.toNat_sub_of_le, toNat_bit hk]
    · rfl
    · rw [BitVec.le_def, toNat_bit hk]
      exact Nat.one_le_two_pow
  refine BitVec.eq_of_toNat_eq ?_
  rw [BitVec.toNat_and, hsub, Nat.and_two_pow_sub_one_eq_mod, BitVec.toNat_umod, toNat_bit hk]

/-- The comparison of the absolute values, for a divisor that is not 1 or -1. -/
theorem modsi3_compared (div0 : Code) (ret : BitVec 32) {s : Cpu} (habs : (s.reg .r1).abs ≠ 0#32)
    (n v : Bool) :
    cpu.Ends (modsi3 div0 ret) ((modsi3 div0 ret).drop 7)
      (smodState s (s.reg .r0).abs (s.reg .r1).abs ((s.reg .r1).abs - 1#32) n
        (decide ((s.reg .r0).abs = (s.reg .r1).abs)) (decide ((s.reg .r1).abs ≤ (s.reg .r0).abs)) v)
      (SmodResult s) := by
  rcases lt_trichotomy (s.reg .r0).abs.toNat (s.reg .r1).abs.toNat with hlt | heq | hgt
  · have hmod : (s.reg .r0).abs = (s.reg .r0).abs % (s.reg .r1).abs :=
      (BitVec.umod_eq_of_lt (BitVec.lt_def.2 hlt)).symm
    have hz : (s.reg .r0).abs ≠ (s.reg .r1).abs := fun h => hlt.ne (congrArg BitVec.toNat h)
    have hc : ¬ (s.reg .r1).abs ≤ (s.reg .r0).abs := BitVec.not_le.2 (BitVec.lt_def.2 hlt)
    rw [decide_eq_false hz, decide_eq_false hc]
    refine ends_op_neg rfl (ends_op_neg rfl (ends_op_neg rfl (ends_branch_pos rfl ?_)))
    exact hmod ▸ ends_smodSign _ _ _ _
  · rw [BitVec.toNat_inj] at heq
    have hmod : 0#32 &&& ((s.reg .r1).abs - 1#32) = (s.reg .r0).abs % (s.reg .r1).abs := by
      rw [heq, BitVec.umod_self, BitVec.zero_and]
    have hc : (s.reg .r1).abs ≤ (s.reg .r0).abs := heq ▸ BitVec.le_refl _
    rw [decide_eq_true heq, decide_eq_true hc]
    refine ends_op_pos rfl ?_
    rw [exec_mov, smodState_set_r0]
    refine ends_op_neg rfl (ends_op_pos rfl ?_)
    rw [exec_and, smodState_set_r0]
    exact ends_branch_pos rfl (hmod ▸ ends_smodSign _ _ _ _)
  · have hz : (s.reg .r0).abs ≠ (s.reg .r1).abs := fun h => hgt.ne' (congrArg BitVec.toNat h)
    rw [decide_eq_false hz, decide_eq_true (BitVec.le_def.2 hgt.le)]
    refine ends_op_neg rfl (ends_op_pos rfl ?_)
    change cpu.Ends _ _ (smodState s (s.reg .r0).abs (s.reg .r1).abs ((s.reg .r1).abs - 1#32) _
      ((s.reg .r1).abs &&& ((s.reg .r1).abs - 1#32) == 0#32) true _) _
    by_cases hpow : (s.reg .r1).abs &&& ((s.reg .r1).abs - 1#32) = 0#32
    · obtain ⟨k, hk, hbit⟩ := exists_bit habs hpow
      have hmod : (s.reg .r0).abs &&& ((s.reg .r1).abs - 1#32) =
          (s.reg .r0).abs % (s.reg .r1).abs := by
        rw [hbit, and_sub_one_eq_mod hk]
      rw [beq_iff_eq.2 hpow]
      refine ends_op_pos rfl ?_
      rw [exec_and, smodState_set_r0]
      exact ends_branch_pos rfl (hmod ▸ ends_smodSign _ _ _ _)
    · rw [beq_eq_false_iff_ne.2 hpow]
      refine ends_op_neg rfl (ends_branch_neg rfl ?_)
      refine ends_modBody rfl rfl rfl rfl rfl rfl rfl habs ?_ _ _ _ _
      intro d b n z c v
      exact (Asm.ends_label _).2 (ends_smodSign n z c v)

/-- The comparison of the divisor with 1. -/
theorem modsi3_signed (div0 : Code) (ret : BitVec 32) {s : Cpu} (habs : (s.reg .r1).abs ≠ 0#32)
    (n v : Bool) :
    cpu.Ends (modsi3 div0 ret) ((modsi3 div0 ret).drop 6)
      (smodState s (s.reg .r0).abs (s.reg .r1).abs ((s.reg .r1).abs - 1#32) n
        (decide ((s.reg .r1).abs = 1#32)) (decide (1#32 ≤ (s.reg .r1).abs)) v) (SmodResult s) := by
  by_cases hone : (s.reg .r1).abs = 1#32
  · -- a divisor of 1 or -1
    have hmod : (s.reg .r0).abs % (s.reg .r1).abs = 0#32 := by rw [hone, BitVec.umod_one]
    have hle : 1#32 ≤ (s.reg .r1).abs := hone ▸ BitVec.le_refl _
    rw [decide_eq_true hone, decide_eq_true hle]
    refine ends_op_neg rfl (ends_op_pos rfl ?_)
    rw [exec_mov, smodState_set_r0]
    refine ends_op_neg rfl (ends_op_pos rfl ?_)
    rw [exec_and, smodState_set_r0]
    refine ends_branch_pos rfl ?_
    have hzero : 0#32 &&& ((s.reg .r1).abs - 1#32) = (s.reg .r0).abs % (s.reg .r1).abs := by
      rw [BitVec.zero_and, hmod]
    exact hzero ▸ ends_smodSign _ _ _ _
  · rw [decide_eq_false hone]
    refine ends_op_pos rfl ?_
    rw [exec_cmp, value_reg]
    exact modsi3_compared div0 ret habs _ _

theorem modsi3_ends (div0 : Code) (ret : BitVec 32) {s : Cpu} (hs : s.reg .r1 ≠ 0#32) :
    cpu.Ends (modsi3 div0 ret) (modsi3 div0 ret) s (SmodResult s) := by
  have hreg : Function.update (Function.update (Function.update (Function.update s.reg .r1
      (s.reg .r1).abs) .ip (s.reg .r0)) .r0 (s.reg .r0).abs) .r2 ((s.reg .r1).abs - 1#32) =
      (smodState s (s.reg .r0).abs (s.reg .r1).abs ((s.reg .r1).abs - 1#32)
        true true true true).reg := by
    funext r
    cases r <;> rfl
  change cpu.Ends _ (_ :: _ :: _ :: _ :: _ :: _ :: _ :: _ :: _ :: _ :: _ :: _) s _
  refine ends_al ?_
  rw [exec_cmp, value_imm, BitVec.ofNat_eq_ofNat, BitVec.sub_zero]
  refine ends_branch_neg (decide_eq_false hs) (ends_abs rfl rfl (ends_al ?_))
  rw [exec_movs, value_reg]
  change cpu.Ends _ _ ⟨Function.update (Function.update s.reg .r1 (s.reg .r1).abs) .ip (s.reg .r0),
    (s.reg .r0).msb, _, _, _, s.mem⟩ _
  refine ends_abs rfl rfl (ends_al ?_)
  rw [exec_subs, value_imm, BitVec.ofNat_eq_ofNat]
  change cpu.Ends _ _ ⟨Function.update (Function.update (Function.update (Function.update s.reg .r1
    (s.reg .r1).abs) .ip (s.reg .r0)) .r0 (s.reg .r0).abs) .r2 ((s.reg .r1).abs - 1#32), _,
    decide ((s.reg .r1).abs = 1#32), decide (1#32 ≤ (s.reg .r1).abs), _, s.mem⟩ _
  rw [hreg]
  exact modsi3_signed div0 ret (abs_ne_zero hs) _ _

end Ucore.Arm
