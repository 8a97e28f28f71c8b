import Ucore.Arm.Code
import Ucore.Arm.Exec
import Ucore.Lib.Restoring

/-!
# Unsigned division

`__udivsi3` is exact (`udivsi3_ends`).  The divisor is shifted up as far as it fits, and then the
loop makes four trials at a time, each of which subtracts the divisor if it can and notes a bit of
the quotient.  The last round may try bits below the lowest one: then too much is subtracted from
the dividend, but the bit that would be noted for it is shifted out.

`Found n m k i q a` is what holds in the middle of a round.  It says that the bits of the quotient
of `n` and `m` from `k + 1 - i` on are in `q`, with `a` left, or, if there are not so many bits,
that all of the quotient is in `q` and nothing is known about `a`.

* `Found.trial` — one trial, by the rules of `Ucore.Lib.Restoring`;
* `Found.eq_div` — when the loop ends, because nothing is left or the last bit has been tried, `q`
  is the quotient;
* `ends_divLoop_round` — four trials, and the lines that shift divisor and bit down;
* `ends_divLoop` — the loop, by `Asm.ends_loop`, on the number of bits that are left.

The loop is the one of `__divsi3` as well, which is why the registers are an argument.  `Returned`
is what a routine leaves alone when it returns.
-/

set_option autoImplicit false

namespace Ucore.Arm

/-- A routine has returned to the address in `lr`, and changed only the registers `rs`. -/
structure Returned (rs : List Reg) (s s' : Cpu) : Prop where
  pc : s'.reg .pc = s.reg .lr
  reg : ∀ r, r ≠ .pc → r ∉ rs → s'.reg r = s.reg r
  mem : s'.mem = s.mem

/-! ## Words -/

theorem toNat_bit {k : ℕ} (hk : k < 32) : (1#32 <<< k).toNat = 2 ^ k := by
  have hpow : 2 ^ k < 2 ^ 32 := Nat.pow_lt_pow_right (by omega) hk
  rw [BitVec.toNat_shiftLeft, Nat.shiftLeft_eq, BitVec.toNat_one (by omega), Nat.one_mul,
    Nat.mod_eq_of_lt hpow]

theorem bit_shiftRight {k i : ℕ} (hi : i ≤ k) (hk : k < 32) :
    (1#32 <<< k) >>> i = 1#32 <<< (k - i) := by
  refine BitVec.eq_of_toNat_eq ?_
  rw [BitVec.toNat_ushiftRight, toNat_bit hk, toNat_bit (by omega), Nat.shiftRight_eq_div_pow,
    Nat.pow_div hi (by omega)]

theorem bit_shiftRight_eq_zero {k i : ℕ} (hi : k < i) (hk : k < 32) : (1#32 <<< k) >>> i = 0#32 := by
  refine BitVec.eq_of_toNat_eq ?_
  rw [BitVec.toNat_ushiftRight, toNat_bit hk, Nat.shiftRight_eq_div_pow]
  exact Nat.div_eq_of_lt (Nat.pow_lt_pow_right (by omega) hi)

theorem bit_ne_zero {k : ℕ} (hk : k < 32) : 1#32 <<< k ≠ 0#32 := by
  intro h
  have hbit := toNat_bit hk
  rw [h] at hbit
  exact (Nat.two_pow_pos k).ne hbit

/-- The divisor, in the place of a lower bit. -/
theorem toNat_divisor {m k i : ℕ} {d : BitVec 32} (hd : d.toNat = m * 2 ^ k) (hi : i ≤ k) :
    (d >>> i).toNat = m * 2 ^ (k - i) := by
  rw [BitVec.toNat_ushiftRight, hd, Nat.shiftRight_eq_div_pow, ← Nat.pow_sub_mul_pow 2 hi,
    ← Nat.mul_assoc, Nat.mul_div_cancel _ (Nat.two_pow_pos i)]

/-- A divisor that has been shifted up by `k`, and is not 0. -/
theorem lt_of_mul_lt {m k : ℕ} (hm : 0 < m) (hlt : m * 2 ^ k < 2 ^ 32) : k < 32 := by
  by_contra hk
  have hpow : 2 ^ 32 ≤ 2 ^ k := Nat.pow_le_pow_right (by omega) (by omega)
  have hle : 1 * 2 ^ k ≤ m * 2 ^ k := Nat.mul_le_mul_right _ hm
  omega

theorem lt_of_toNat_eq {m k : ℕ} {d : BitVec 32} (hm : 0 < m) (hd : d.toNat = m * 2 ^ k) :
    k < 32 :=
  lt_of_mul_lt hm (hd ▸ d.isLt)

/-! ## Trials -/

/-- `i` trials of a round that began at the bit `k` have been made: the bits of the quotient from
`k + 1 - i` on are found, or all. -/
def Found (n m k i : ℕ) (q a : BitVec 32) : Prop :=
  if i ≤ k then Quot n m (k + 1 - i) q.toNat a.toNat else q.toNat = n / m

namespace Found

variable {n m k i : ℕ} {q a d : BitVec 32}

theorem of_quot (h : Quot n m (k + 1 - i) q.toNat a.toNat) (hi : i ≤ k + 1) :
    Found n m k i q a := by
  unfold Found
  split
  · exact h
  · next hk =>
    rw [show k + 1 - i = 0 by omega] at h
    exact h.exact.1.symm

/-- **One trial of a round.** -/
theorem trial (h : Found n m k i q a) (hk : k < 32) (hd : d.toNat = m * 2 ^ k) :
    Found n m k (i + 1) (if d >>> i ≤ a then q ||| (1#32 <<< k) >>> i else q)
      (if d >>> i ≤ a then a - d >>> i else a) := by
  by_cases hi : i ≤ k
  · rw [Found, if_pos hi, show k + 1 - i = k - i + 1 by omega] at h
    have hdi := toNat_divisor hd hi
    rw [bit_shiftRight hi hk]
    refine of_quot ?_ (by omega)
    rw [show k + 1 - (i + 1) = k - i by omega]
    by_cases hle : d >>> i ≤ a
    · rw [if_pos hle, if_pos hle, BitVec.toNat_sub_of_le hle, BitVec.toNat_or, hdi,
        toNat_bit (by omega), or_two_pow_eq_add h.dvd]
      exact h.trial_pos (hdi ▸ BitVec.le_def.1 hle)
    · rw [if_neg hle, if_neg hle]
      exact h.trial_neg (hdi ▸ BitVec.lt_def.1 (BitVec.not_le.1 hle))
  · -- the bit has been shifted out
    rw [Found, if_neg hi] at h
    rw [Found, if_neg (by omega), bit_shiftRight_eq_zero (by omega) hk, BitVec.or_zero, ite_self]
    exact h

/-- A round may be the last one if nothing is left, or if there are no bits below. -/
theorem eq_div (h : Found n m k i q a) (hstop : a = 0#32 ∨ k < i) : q.toNat = n / m := by
  unfold Found at h
  split at h
  · next hi =>
    obtain rfl | hk := hstop
    · exact (Quot.done h).1.symm
    · omega
  · exact h

end Found

/-! ## The loop -/

section

open Line Instr Operand

variable (R : DivRegs) {code text : Code} {f : Reg → BitVec 32} {mem : BitVec 32 → BitVec 32}
  {Q : Cpu → Prop} {n m : ℕ}

/-- The lines of the division loop. -/
def divLoop (l : Label) : Code := [
  op .al (cmp R.dividend (reg R.divisor)),
  op .cs (sub R.dividend R.dividend (reg R.divisor)),
  op .cs (orr R.result R.result (reg R.curbit)),
  op .al (cmp R.dividend (shift .lsr R.divisor 1)),
  op .cs (sub R.dividend R.dividend (shift .lsr R.divisor 1)),
  op .cs (orr R.result R.result (shift .lsr R.curbit 1)),
  op .al (cmp R.dividend (shift .lsr R.divisor 2)),
  op .cs (sub R.dividend R.dividend (shift .lsr R.divisor 2)),
  op .cs (orr R.result R.result (shift .lsr R.curbit 2)),
  op .al (cmp R.dividend (shift .lsr R.divisor 3)),
  op .cs (sub R.dividend R.dividend (shift .lsr R.divisor 3)),
  op .cs (orr R.result R.result (shift .lsr R.curbit 3)),
  op .al (cmp R.dividend (imm 0)),
  op .ne (mov true R.curbit (shift .lsr R.curbit 4)),
  op .ne (mov false R.divisor (shift .lsr R.divisor 4)),
  branch .ne l]

variable {R}

theorem Found.ends_trial {k i : ℕ} {a d q : BitVec 32} (h : Found n m k i q a) (hk : k < 32)
    (hd : d.toNat = m * 2 ^ k) {divisor curbit : Operand}
    (hdivisor : ∀ s, (divisor.value s).1 = s.reg R.divisor >>> i)
    (hcurbit : ∀ s, (curbit.value s).1 = s.reg R.curbit >>> i)
    (hnext : ∀ a q, Found n m k (i + 1) q a → ∀ n' z c v,
      cpu.Ends code text ⟨R.file f a d q (1#32 <<< k), n', z, c, v, mem⟩ Q) (n' z c v : Bool) :
    cpu.Ends code
      (op .al (cmp R.dividend divisor) :: op .cs (sub R.dividend R.dividend divisor) ::
        op .cs (orr R.result R.result curbit) :: text)
      ⟨R.file f a d q (1#32 <<< k), n', z, c, v, mem⟩ Q :=
  Arm.ends_trial R i (· >>> i) hdivisor hcurbit (hnext _ _ (h.trial hk hd)) n' z c v

/-- **The end of a round.**  There is another one, four bits below, if there are so many bits and
something is left. -/
theorem ends_next {l : Label} {k : ℕ} {a d q : BitVec 32} (hk : k < 32)
    (hexit : a = 0#32 ∨ k < 4 → ∀ b n z c v,
      cpu.Ends code text ⟨R.file f a d q b, n, z, c, v, mem⟩ Q)
    (hloop : 4 ≤ k → a ≠ 0#32 → ∀ n z c v, cpu.Ends code (Asm.goto l code)
      ⟨R.file f a (d >>> 4) q (1#32 <<< (k - 4)), n, z, c, v, mem⟩ Q) (n z c v : Bool) :
    cpu.Ends code
      (op .al (cmp R.dividend (imm 0)) :: op .ne (mov true R.curbit (shift .lsr R.curbit 4)) ::
        op .ne (mov false R.divisor (shift .lsr R.divisor 4)) :: branch .ne l :: text)
      ⟨R.file f a d q (1#32 <<< k), n, z, c, v, mem⟩ Q := by
  obtain rfl | ha := eq_or_ne a 0#32
  · simp [hexit (.inl rfl)]
  · rcases Nat.lt_or_ge k 4 with hlast | hmore
    · simp [ha, bit_shiftRight_eq_zero hlast hk, Cpu.set, Cpu.setFlags, hexit (.inr hlast)]
    · have hne : 1#32 <<< (k - 4) ≠ 0#32 := bit_ne_zero (by omega)
      simp [ha, bit_shiftRight hmore hk, hne, Cpu.set, Cpu.setFlags, hloop hmore ha]

/-- One round of the division loop. -/
theorem ends_divLoop_round {l : Label} {k : ℕ} {a d q : BitVec 32} (hk : k < 32)
    (hd : d.toNat = m * 2 ^ k) (hq : Quot n m (k + 1) q.toNat a.toNat)
    (hloop : 4 ≤ k → ∀ a q, Quot n m (k - 4 + 1) q.toNat a.toNat → ∀ n' z c v,
      cpu.Ends code (Asm.goto l code)
        ⟨R.file f a (d >>> 4) q (1#32 <<< (k - 4)), n', z, c, v, mem⟩ Q)
    (hexit : ∀ a d q, q.toNat = n / m → ∀ b n' z c v,
      cpu.Ends code text ⟨R.file f a d q b, n', z, c, v, mem⟩ Q) (n' z c v : Bool) :
    cpu.Ends code (divLoop R l ++ text) ⟨R.file f a d q (1#32 <<< k), n', z, c, v, mem⟩ Q := by
  have h₀ : Found n m k 0 q a := Found.of_quot hq (by omega)
  refine h₀.ends_trial hk hd (fun _ => rfl) (fun _ => (BitVec.ushiftRight_zero _).symm) ?_ n' z c v
  intro a₁ q₁ h₁
  refine h₁.ends_trial hk hd (fun _ => rfl) (fun _ => rfl) ?_
  intro a₂ q₂ h₂
  refine h₂.ends_trial hk hd (fun _ => rfl) (fun _ => rfl) ?_
  intro a₃ q₃ h₃
  refine h₃.ends_trial hk hd (fun _ => rfl) (fun _ => rfl) ?_
  intro a₄ q₄ h₄ n' z c v
  refine ends_next hk (fun hstop => hexit _ _ _ (h₄.eq_div hstop)) ?_ n' z c v
  intro hmore _
  rw [Found, if_pos hmore, show k + 1 - 4 = k - 4 + 1 by omega] at h₄
  exact hloop hmore _ _ h₄

/-- **The division loop** leaves the quotient. -/
theorem ends_divLoop {l : Label} (hl : Asm.goto l code = divLoop R l ++ text)
    (hexit : ∀ a d q, q.toNat = n / m → ∀ b n' z c v,
      cpu.Ends code text ⟨R.file f a d q b, n', z, c, v, mem⟩ Q)
    {k : ℕ} {a d q : BitVec 32} (hk : k < 32) (hd : d.toNat = m * 2 ^ k)
    (hq : Quot n m (k + 1) q.toNat a.toNat) (n' z c v : Bool) :
    cpu.Ends code (Asm.goto l code) ⟨R.file f a d q (1#32 <<< k), n', z, c, v, mem⟩ Q := by
  refine Asm.ends_loop l (fun k s => ∃ a d q n' z c v, k < 32 ∧ d.toNat = m * 2 ^ k ∧
    Quot n m (k + 1) q.toNat a.toNat ∧ s = ⟨R.file f a d q (1#32 <<< k), n', z, c, v, mem⟩) ?_
    ⟨a, d, q, n', z, c, v, hk, hd, hq, rfl⟩
  rintro k _ ⟨a, d, q, n', z, c, v, hk, hd, hq, rfl⟩ ih
  rw [hl]
  refine ends_divLoop_round hk hd hq ?_ hexit n' z c v
  intro hmore a q hq n' z c v
  exact ih (k - 4) _ (by omega)
    ⟨a, _, q, n', z, c, v, by omega, toNat_divisor hd hmore, hq, rfl⟩

end

/-! ## The routine -/

/-- The registers of `__udivsi3`. -/
def udivRegs : DivRegs := ⟨.r0, .r1, .r2, .r3, by decide⟩

/-- An aligned divisor leaves room for one more bit above the dividend. -/
theorem lt_of_aligned {m k : ℕ} {a d : BitVec 32} (hm : 0 < m) (hd : d.toNat = m * 2 ^ k)
    (h : 0x80000000#32 ≤ d ∨ a ≤ d) : a.toNat < m * 2 ^ (k + 1) := by
  have ha := a.isLt
  have hpos : 0 < m * 2 ^ k := Nat.mul_pos hm (Nat.two_pow_pos k)
  rw [pow_succ, ← Nat.mul_assoc, ← hd]
  rw [BitVec.le_def, BitVec.le_def, show (0x80000000#32).toNat = 2 ^ 31 from rfl] at h
  omega

/-- `__udivsi3` has the quotient in `r2`. -/
theorem udivsi3_gotResult (div0 : Code) (ret : BitVec 32) {s : Cpu} {a d q b : BitVec 32}
    (hq : q = s.reg .r0 / s.reg .r1) (n z c v : Bool) :
    cpu.Ends (udivsi3 div0 ret) (Asm.goto .gotResult (udivsi3 div0 ret))
      ⟨udivRegs.file s.reg a d q b, n, z, c, v, s.mem⟩ fun s' =>
        s'.reg .r0 = s.reg .r0 / s.reg .r1 ∧ Returned [.r0, .r1, .r2, .r3] s s' := by
  change cpu.Ends _ (_ :: _ :: _) _ _
  simp only [Asm.ends_op, Asm.ends_ret, cpu_holds, holds_al, if_true, cpu_exec, exec_mov, value_reg,
    Cpu.set]
  refine ⟨hq, rfl, ?_, rfl⟩
  intro r hpc hr
  simp only [List.mem_cons, List.not_mem_nil, or_false, not_or] at hr
  simp [udivRegs, DivRegs.file, hpc, hr]

theorem udivsi3_ends (div0 : Code) (ret : BitVec 32) {s : Cpu} (hs : s.reg .r1 ≠ 0#32) :
    cpu.Ends (udivsi3 div0 ret) (udivsi3 div0 ret) s fun s' =>
      s'.reg .r0 = s.reg .r0 / s.reg .r1 ∧ Returned [.r0, .r1, .r2, .r3] s s' := by
  have hpos : 0 < (s.reg .r1).toNat := Nat.pos_of_ne_zero fun h => hs (BitVec.eq_of_toNat_eq h)
  have hfile : Function.update (Function.update s.reg .r3 1#32) .r2 0#32 =
      udivRegs.file s.reg (s.reg .r0) (s.reg .r1) 0#32 (1#32 <<< 0) := by
    funext r
    cases r <;> rfl
  change cpu.Ends _ (_ :: _ :: _ :: _ :: _ :: _ :: _ :: Asm.goto .loop1 (udivsi3 div0 ret)) s _
  simp only [Asm.ends_op, Asm.ends_branch, Asm.ends_label, cpu_holds, holds_al, holds_eq, holds_cc,
    if_true, cpu_exec, exec_cmp, exec_mov, value_imm, value_reg, Cpu.set, BitVec.ofNat_eq_ofNat, hs,
    decide_false, Bool.false_eq_true, if_false, hfile, Bool.not_eq_true']
  split
  · next hlt =>
    -- a dividend below the divisor
    refine udivsi3_gotResult div0 ret ?_ _ _ _ _
    refine BitVec.eq_of_toNat_eq ?_
    have hlt : (s.reg .r0).toNat < (s.reg .r1).toNat :=
      BitVec.lt_def.1 (BitVec.not_le.1 (of_decide_eq_false hlt))
    exact ((BitVec.toNat_udiv).trans (Nat.div_eq_of_lt hlt)).symm
  · refine ends_aligned udivRegs hpos (· <<< 4) (· <<< 1) (1#32 <<< ·) (fun _ => rfl) (fun _ => rfl)
      (fun k => (BitVec.shiftLeft_add _ _ _).symm) (fun k => (BitVec.shiftLeft_add _ _ _).symm)
      rfl rfl ?_ (by simp) _ _ _ _
    intro k d hd halign n z c v
    refine Asm.ends_fall rfl ?_
    refine ends_divLoop rfl ?_ (lt_of_toNat_eq hpos hd) hd (Quot.start (lt_of_aligned hpos hd halign)) _ _ _ _
    intro a d q hq b n z c v
    refine Asm.ends_fall rfl (udivsi3_gotResult div0 ret ?_ n z c v)
    exact BitVec.eq_of_toNat_eq (hq.trans (BitVec.toNat_udiv).symm)

end Ucore.Arm
