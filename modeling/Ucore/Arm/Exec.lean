import Mathlib.Algebra.Ring.Nat
import Ucore.Arm.Defs

/-!
# Executing instructions

What the instructions do, with the flags as comparisons, and the rules for the lines that all
division routines share.

## One instruction

The processor computes flags bit by bit, and a routine branches on conditions that combine them.
The lemmas of the first section say what the flags mean after a comparison: the carry is `≤` on
unsigned numbers, the zero flag is equality, and `n ≠ v` is `<` on signed ones.  The second section
has a simp lemma for each instruction, which says what it does to a `Cpu` that is given by its
parts.  The rules of `Ucore.Lib.Asm` for a line are here once more, for a condition that is known to
hold or not to hold: `ends_op_pos` and `ends_op_neg`, `ends_branch_pos` and `ends_branch_neg`,
`ends_ret_pos` and `ends_ret_neg`.  With these a proof goes through a text line by line, and splits
cases where the processor does.

## Four registers

The routines use the same lines on different registers, as their macros have the registers as
arguments.  `DivRegs` are the registers of a division, all different: the dividend, the divisor, the
result and the current bit.  `DivRegs.file` is a register file in which these have certain values
and the others those of `f`, so that an assignment to one of the four is another `file`.

## The shared lines

* `ends_trial` — a trial: if the divisor can be subtracted, it is, and the bit is noted;
* `ends_sub` — the same without a note, for the routines that only want the remainder;
* `ends_align` — the loops before the trials, which shift the divisor up until it is larger than the
  dividend or reaches its limit: the invariant is that the divisor is `m * 2 ^ k` and the bit
  `1 <<< k`, and every round is one `ends_shift`;
* `ends_aligned` — two of these loops in a row, by four bits and then by one.

The rules hold for all flags from before, since each of these sequences begins with a comparison.
-/

set_option autoImplicit false

namespace Ucore.Arm

/-! ## Flags -/

theorem addWithCarry_carry (x y : BitVec 32) :
    decide (2 ^ 32 ≤ x.toNat + (~~~y).toNat + true.toNat) = decide (y ≤ x) := by
  have hx := x.isLt
  have hy := y.isLt
  rw [BitVec.toNat_not, Bool.toNat_true, decide_eq_decide, BitVec.le_def]
  omega

theorem addWithCarry_sum (x y : BitVec 32) :
    x + ~~~y + BitVec.setWidth 32 (BitVec.ofBool true) = x - y := by
  rw [BitVec.sub_eq_add_neg, BitVec.neg_eq_not_add, ← BitVec.add_assoc]
  rfl

/-- The overflow of a subtraction. -/
def subOverflow (x y : BitVec 32) : Bool := x.msb != y.msb && (x - y).msb != x.msb

/-- A subtraction, by its complement. -/
theorem addWithCarry_not (x y : BitVec 32) :
    addWithCarry x (~~~y) true = (x - y, decide (y ≤ x), subOverflow x y) := by
  have hover : (x.msb == (~~~y).msb) = (x.msb != y.msb) := by
    rw [BitVec.msb_not]
    cases x.msb <;> cases y.msb <;> rfl
  simp only [addWithCarry, addWithCarry_carry, addWithCarry_sum, subOverflow, hover]

theorem sub_beq_zero (x y : BitVec 32) : (x - y == 0#32) = decide (x = y) := by
  rw [Bool.eq_iff_iff, beq_iff_eq, decide_eq_true_iff]
  constructor
  · intro h
    have hx := x.isLt
    have hy := y.isLt
    have hsub := congrArg BitVec.toNat h
    rw [BitVec.toNat_sub, BitVec.toNat_zero] at hsub
    exact BitVec.eq_of_toNat_eq (by omega)
  · rintro rfl
    exact BitVec.sub_self x

/-- The condition `ls` behind a comparison. -/
theorem not_le_or_eq (x y : BitVec 32) :
    (!decide (y ≤ x) || decide (x = y)) = decide (x ≤ y) := by
  rw [Bool.eq_iff_iff, Bool.or_eq_true, Bool.not_eq_true', decide_eq_false_iff_not,
    decide_eq_true_iff, decide_eq_true_iff, BitVec.le_def, BitVec.le_def, ← BitVec.toNat_inj]
  omega

/-- The condition `ge` behind a comparison. -/
theorem sub_msb_beq_subOverflow (x y : BitVec 32) :
    ((x - y).msb == subOverflow x y) = decide (y.toInt ≤ x.toInt) := by
  have hx := x.isLt
  have hy := y.isLt
  rw [Bool.eq_iff_iff, decide_eq_true_iff, subOverflow]
  simp only [BitVec.msb_eq_decide, BitVec.toInt_eq_toNat_cond, BitVec.toNat_sub]
  grind

/-! ## Instructions -/

section

variable (s : Cpu)

@[simp] theorem cpu_holds (c : Cond) : cpu.holds c s = c.holds s := rfl

@[simp] theorem cpu_exec (i : Instr) : cpu.exec i s = i.exec s := rfl

@[simp] theorem holds_al : Cond.al.holds s = true := rfl
@[simp] theorem holds_eq : Cond.eq.holds s = s.z := rfl
@[simp] theorem holds_ne : Cond.ne.holds s = !s.z := rfl
@[simp] theorem holds_cs : Cond.cs.holds s = s.c := rfl
@[simp] theorem holds_cc : Cond.cc.holds s = !s.c := rfl
@[simp] theorem holds_mi : Cond.mi.holds s = s.n := rfl
@[simp] theorem holds_hi : Cond.hi.holds s = (s.c && !s.z) := rfl
@[simp] theorem holds_ls : Cond.ls.holds s = (!s.c || s.z) := rfl
@[simp] theorem holds_ge : Cond.ge.holds s = (s.n == s.v) := rfl
@[simp] theorem holds_lt : Cond.lt.holds s = (s.n != s.v) := rfl

@[simp] theorem value_imm (v : BitVec 32) : ((Operand.imm v).value s).1 = v := rfl

@[simp] theorem value_reg (r : Reg) : (Operand.reg r).value s = (s.reg r, s.c) := rfl

@[simp] theorem value_lsl (r : Reg) (n : ℕ) :
    ((Operand.shift .lsl r n).value s).1 = s.reg r <<< n := rfl

@[simp] theorem value_lsr (r : Reg) (n : ℕ) :
    ((Operand.shift .lsr r n).value s).1 = s.reg r >>> n := rfl

@[simp] theorem value_asr (r : Reg) (n : ℕ) :
    ((Operand.shift .asr r n).value s).1 = (s.reg r).sshiftRight n := rfl

@[simp] theorem value_ror (r : Reg) (n : ℕ) :
    ((Operand.shift .ror r n).value s).1 = (s.reg r).rotateRight n := rfl

section

variable {s} {code text : Code} {Q : Cpu → Prop} {c : Cond} {i : Instr}

theorem ends_op_pos (hc : c.holds s = true) (h : cpu.Ends code text (i.exec s) Q) :
    cpu.Ends code (.op c i :: text) s Q :=
  (Asm.ends_op _ _).2 (by simpa [hc] using h)

theorem ends_op_neg (hc : c.holds s = false) (h : cpu.Ends code text s Q) :
    cpu.Ends code (.op c i :: text) s Q :=
  (Asm.ends_op _ _).2 (by simpa [hc] using h)

theorem ends_al (h : cpu.Ends code text (i.exec s) Q) : cpu.Ends code (.op .al i :: text) s Q :=
  ends_op_pos rfl h

theorem ends_ret_pos (hc : c.holds s = true) (h : Q (i.exec s)) :
    cpu.Ends code (.ret c i :: text) s Q :=
  (Asm.ends_ret _ _).2 (by simpa [hc] using h)

theorem ends_ret_al (h : Q (i.exec s)) : cpu.Ends code (.ret .al i :: text) s Q :=
  ends_ret_pos rfl h

theorem ends_ret_neg (hc : c.holds s = false) (h : cpu.Ends code text s Q) :
    cpu.Ends code (.ret c i :: text) s Q :=
  (Asm.ends_ret _ _).2 (by simpa [hc] using h)

theorem ends_branch_pos {l : Label} (hc : c.holds s = true)
    (h : cpu.Ends code (Asm.goto l code) s Q) : cpu.Ends code (.branch c l :: text) s Q :=
  (Asm.ends_branch _ _).2 (by simpa [hc] using h)

theorem ends_branch_neg {l : Label} (hc : c.holds s = false) (h : cpu.Ends code text s Q) :
    cpu.Ends code (.branch c l :: text) s Q :=
  (Asm.ends_branch _ _).2 (by simpa [hc] using h)

end

variable (rd rn : Reg) (o : Operand)

@[simp] theorem exec_mov : (Instr.mov false rd o).exec s = s.set rd (o.value s).1 := rfl

@[simp] theorem exec_movs : (Instr.mov true rd o).exec s =
    (s.setFlags (o.value s).1 (o.value s).2 s.v).set rd (o.value s).1 := rfl

@[simp] theorem exec_add : (Instr.add rd rn o).exec s = s.set rd (s.reg rn + (o.value s).1) := by
  change s.set rd _ = _
  rw [Op.apply, addWithCarry]
  congr 1
  exact BitVec.add_zero _

@[simp] theorem exec_sub : (Instr.sub rd rn o).exec s = s.set rd (s.reg rn - (o.value s).1) := by
  change s.set rd _ = _
  rw [Op.apply, addWithCarry_not]

@[simp] theorem exec_rsb : (Instr.rsb rd rn o).exec s = s.set rd ((o.value s).1 - s.reg rn) := by
  change s.set rd _ = _
  rw [Op.apply, addWithCarry_not]

@[simp] theorem exec_and : (Instr.and rd rn o).exec s = s.set rd (s.reg rn &&& (o.value s).1) := rfl

@[simp] theorem exec_orr : (Instr.orr rd rn o).exec s = s.set rd (s.reg rn ||| (o.value s).1) := rfl

@[simp] theorem exec_eor : (Instr.eor rd rn o).exec s = s.set rd (s.reg rn ^^^ (o.value s).1) := rfl

@[simp] theorem exec_ands : (Instr.ands rd rn o).exec s =
    (s.setFlags (s.reg rn &&& (o.value s).1) (o.value s).2 s.v).set rd
      (s.reg rn &&& (o.value s).1) := rfl

@[simp] theorem exec_tst : (Instr.tst rn o).exec s =
    s.setFlags (s.reg rn &&& (o.value s).1) (o.value s).2 s.v := rfl

theorem exec_adcs : (Instr.adcs rd rn o).exec s =
    (s.setFlags (addWithCarry (s.reg rn) (o.value s).1 s.c).1
      (addWithCarry (s.reg rn) (o.value s).1 s.c).2.1
      (addWithCarry (s.reg rn) (o.value s).1 s.c).2.2).set rd
      (addWithCarry (s.reg rn) (o.value s).1 s.c).1 := rfl

@[simp] theorem exec_teq : (Instr.teq rn o).exec s =
    s.setFlags (s.reg rn ^^^ (o.value s).1) (o.value s).2 s.v := rfl

@[simp] theorem exec_cmp : (Instr.cmp rn o).exec s =
    { s with
      n := (s.reg rn - (o.value s).1).msb, z := decide (s.reg rn = (o.value s).1),
      c := decide ((o.value s).1 ≤ s.reg rn), v := subOverflow (s.reg rn) (o.value s).1 } := by
  change s.setFlags _ _ _ = _
  rw [Op.apply, addWithCarry_not, Cpu.setFlags, sub_beq_zero]

@[simp] theorem exec_subs : (Instr.subs rd rn o).exec s =
    Cpu.set { s with
      n := (s.reg rn - (o.value s).1).msb, z := decide (s.reg rn = (o.value s).1),
      c := decide ((o.value s).1 ≤ s.reg rn), v := subOverflow (s.reg rn) (o.value s).1 }
      rd (s.reg rn - (o.value s).1) := by
  change (s.setFlags _ _ _).set rd _ = _
  rw [Op.apply, addWithCarry_not, Cpu.setFlags, sub_beq_zero]

end

/-! ## Register files -/

/-- The registers of a division. -/
structure DivRegs where
  dividend : Reg
  divisor : Reg
  result : Reg
  curbit : Reg
  nodup : [dividend, divisor, result, curbit].Nodup

namespace DivRegs

variable (R : DivRegs) (f : Reg → BitVec 32) (a d q b : BitVec 32)

/-- The registers `f`, but those of the division. -/
def file : Reg → BitVec 32 := fun r =>
  if r = R.dividend then a
  else if r = R.divisor then d
  else if r = R.result then q
  else if r = R.curbit then b
  else f r

@[simp] theorem file_dividend : R.file f a d q b R.dividend = a := if_pos rfl

@[simp] theorem file_divisor : R.file f a d q b R.divisor = d := by
  have hne := R.nodup
  simp only [List.nodup_cons, List.mem_cons, not_or] at hne
  rw [file, if_neg (Ne.symm hne.1.1), if_pos rfl]

@[simp] theorem file_result : R.file f a d q b R.result = q := by
  have hne := R.nodup
  simp only [List.nodup_cons, List.mem_cons, not_or] at hne
  rw [file, if_neg (Ne.symm hne.1.2.1), if_neg (Ne.symm hne.2.1.1), if_pos rfl]

@[simp] theorem file_curbit : R.file f a d q b R.curbit = b := by
  have hne := R.nodup
  simp only [List.nodup_cons, List.mem_cons, not_or] at hne
  rw [file, if_neg (Ne.symm hne.1.2.2.1), if_neg (Ne.symm hne.2.1.2.1), if_neg (Ne.symm hne.2.2.1.1),
    if_pos rfl]

variable {a d q b}

variable (a d q b) (v : BitVec 32)

@[simp] theorem update_dividend :
    Function.update (R.file f a d q b) R.dividend v = R.file f v d q b := by
  have hne := R.nodup
  simp only [List.nodup_cons, List.mem_cons, not_or] at hne
  funext r
  simp only [Function.update_apply, file]
  grind

@[simp] theorem update_divisor :
    Function.update (R.file f a d q b) R.divisor v = R.file f a v q b := by
  have hne := R.nodup
  simp only [List.nodup_cons, List.mem_cons, not_or] at hne
  funext r
  simp only [Function.update_apply, file]
  grind

@[simp] theorem update_result :
    Function.update (R.file f a d q b) R.result v = R.file f a d v b := by
  have hne := R.nodup
  simp only [List.nodup_cons, List.mem_cons, not_or] at hne
  funext r
  simp only [Function.update_apply, file]
  grind

@[simp] theorem update_curbit :
    Function.update (R.file f a d q b) R.curbit v = R.file f a d q v := by
  have hne := R.nodup
  simp only [List.nodup_cons, List.mem_cons, not_or] at hne
  funext r
  simp only [Function.update_apply, file]
  grind

end DivRegs

/-! ## Rules -/

section

open Line Instr Operand

variable (R : DivRegs) {code text : Code} {f : Reg → BitVec 32} {a d q b : BitVec 32}
  {mem : BitVec 32 → BitVec 32} {Q : Cpu → Prop}

/-- **One trial**, for the bit `i` below that of the divisor. -/
theorem ends_trial (i : ℕ) (bit : BitVec 32 → BitVec 32) {divisor curbit : Operand}
    (hdivisor : ∀ s, (divisor.value s).1 = s.reg R.divisor >>> i)
    (hcurbit : ∀ s, (curbit.value s).1 = bit (s.reg R.curbit))
    (h : ∀ n z c v, cpu.Ends code text ⟨R.file f (if d >>> i ≤ a then a - d >>> i else a) d
      (if d >>> i ≤ a then q ||| bit b else q) b, n, z, c, v, mem⟩ Q) (n z c v : Bool) :
    cpu.Ends code
      (op .al (cmp R.dividend divisor) :: op .cs (sub R.dividend R.dividend divisor) ::
        op .cs (orr R.result R.result curbit) :: text)
      ⟨R.file f a d q b, n, z, c, v, mem⟩ Q := by
  by_cases hle : d >>> i ≤ a
  · rw [if_pos hle, if_pos hle] at h
    simp [hdivisor, hcurbit, hle, Cpu.set, h]
  · rw [if_neg hle, if_neg hle] at h
    simp [hdivisor, hle, h]

/-- A trial that is not noted. -/
theorem ends_sub (i : ℕ) {divisor : Operand}
    (hdivisor : ∀ s, (divisor.value s).1 = s.reg R.divisor >>> i)
    (h : ∀ n z c v, cpu.Ends code text ⟨R.file f (if d >>> i ≤ a then a - d >>> i else a) d q b,
      n, z, c, v, mem⟩ Q) (n z c v : Bool) :
    cpu.Ends code
      (op .al (cmp R.dividend divisor) :: op .cs (sub R.dividend R.dividend divisor) :: text)
      ⟨R.file f a d q b, n, z, c, v, mem⟩ Q := by
  by_cases hle : d >>> i ≤ a
  · rw [if_pos hle] at h
    simp [hdivisor, hle, Cpu.set, h]
  · rw [if_neg hle] at h
    simp [hdivisor, hle, h]

/-- One round of a loop that shifts the divisor up by `i` bits. -/
theorem ends_shift (lim : BitVec 32) (i : ℕ) {note : Instr} {g : BitVec 32 → BitVec 32} (l : Label)
    (hnote : ∀ s, note.exec s = s.set R.curbit (g (s.reg R.curbit)))
    (hloop : d < lim → d < a → ∀ n z c v,
      cpu.Ends code (Asm.goto l code) ⟨R.file f a (d <<< i) q (g b), n, z, c, v, mem⟩ Q)
    (hexit : ¬ (d < lim ∧ d < a) → ∀ n z c v,
      cpu.Ends code text ⟨R.file f a d q b, n, z, c, v, mem⟩ Q) (n z c v : Bool) :
    cpu.Ends code
      (op .al (cmp R.divisor (imm lim)) :: op .cc (cmp R.divisor (reg R.dividend)) ::
        op .cc (mov false R.divisor (shift .lsl R.divisor i)) :: op .cc note :: branch .cc l :: text)
      ⟨R.file f a d q b, n, z, c, v, mem⟩ Q := by
  by_cases hlim : lim ≤ d
  · simp [hlim, hexit fun h => absurd hlim (BitVec.not_le.2 h.1)]
  · by_cases ha : a ≤ d
    · simp [hlim, ha, hexit fun h => absurd ha (BitVec.not_le.2 h.2)]
    · simp [hlim, ha, hnote, Cpu.set, hloop (BitVec.not_le.1 hlim) (BitVec.not_le.1 ha)]

/-- **Aligning the divisor.**  The loop shifts it up, from `m * 2 ^ k` on, until it reaches `lim` or
the dividend.  The register `curbit` notes the `k`, as `B k`, and the rounds keep `P k`. -/
theorem ends_align {m : ℕ} (hm : 0 < m) (lim : BitVec 32) {i : ℕ} (hi : 0 < i)
    (hlim : lim.toNat * 2 ^ i ≤ 2 ^ 32) {note : Instr} (g : BitVec 32 → BitVec 32)
    (B : ℕ → BitVec 32) (hnote : ∀ s, note.exec s = s.set R.curbit (g (s.reg R.curbit)))
    (hB : ∀ k, g (B k) = B (k + i)) (P : ℕ → Prop)
    (hP : ∀ k (d : BitVec 32), d.toNat = m * 2 ^ k → d < lim → d < a → P k → P (k + i)) {l : Label}
    (hl : Asm.goto l code =
      op .al (cmp R.divisor (imm lim)) :: op .cc (cmp R.divisor (reg R.dividend)) ::
        op .cc (mov false R.divisor (shift .lsl R.divisor i)) :: op .cc note :: branch .cc l :: text)
    (h : ∀ k (d : BitVec 32), d.toNat = m * 2 ^ k → P k → (lim ≤ d ∨ a ≤ d) → ∀ n z c v,
      cpu.Ends code text ⟨R.file f a d q (B k), n, z, c, v, mem⟩ Q)
    {k : ℕ} {d : BitVec 32} (hd : d.toNat = m * 2 ^ k) (hk : P k) (n z c v : Bool) :
    cpu.Ends code (Asm.goto l code) ⟨R.file f a d q (B k), n, z, c, v, mem⟩ Q := by
  -- what is left below `2 ^ 32` decreases
  refine Asm.ends_loop l (fun left s => ∃ k d n z c v, d.toNat = m * 2 ^ k ∧ P k ∧
    left = 2 ^ 32 - d.toNat ∧ s = ⟨R.file f a d q (B k), n, z, c, v, mem⟩) ?_
    ⟨k, d, n, z, c, v, hd, hk, rfl, rfl⟩
  rintro _ _ ⟨k, d, n, z, c, v, hd, hk, rfl, rfl⟩ ih
  rw [hl]
  refine ends_shift R lim i l hnote ?_ ?_ n z c v
  · intro hlt hlta n z c v
    have hpos : 0 < d.toNat := by
      rw [hd]
      exact Nat.mul_pos hm (Nat.two_pow_pos k)
    have htwo : 2 ≤ 2 ^ i := Nat.le_self_pow (by omega) 2
    have hmul : d.toNat * 2 ≤ d.toNat * 2 ^ i := Nat.mul_le_mul_left _ htwo
    have hfit : d.toNat * 2 ^ i < 2 ^ 32 := by
      refine lt_of_lt_of_le ?_ hlim
      exact Nat.mul_lt_mul_of_pos_right (BitVec.lt_def.1 hlt) (Nat.two_pow_pos i)
    have hshift : (d <<< i).toNat = d.toNat * 2 ^ i := by
      rw [BitVec.toNat_shiftLeft, Nat.shiftLeft_eq, Nat.mod_eq_of_lt hfit]
    refine ih (2 ^ 32 - (d <<< i).toNat) _ (by omega)
      ⟨k + i, _, n, z, c, v, ?_, hP k d hd hlt hlta hk, rfl, ?_⟩
    · rw [hshift, hd, pow_add, Nat.mul_assoc]
    · rw [hB]
  · intro hexit n z c v
    refine h k d hd hk ?_ n z c v
    by_contra hboth
    rw [not_or, BitVec.not_le, BitVec.not_le] at hboth
    exact hexit hboth

/-- Both loops that align the divisor, by 4 bits and then by single ones. -/
theorem ends_aligned {m : ℕ} (hm : 0 < m) {note₁ note₂ : Instr} (g₁ g₂ : BitVec 32 → BitVec 32)
    (B : ℕ → BitVec 32) (hnote₁ : ∀ s, note₁.exec s = s.set R.curbit (g₁ (s.reg R.curbit)))
    (hnote₂ : ∀ s, note₂.exec s = s.set R.curbit (g₂ (s.reg R.curbit)))
    (hB₁ : ∀ k, g₁ (B k) = B (k + 4)) (hB₂ : ∀ k, g₂ (B k) = B (k + 1)) {l₁ l₂ : Label}
    (hl₁ : Asm.goto l₁ code =
      op .al (cmp R.divisor (imm 0x10000000)) :: op .cc (cmp R.divisor (reg R.dividend)) ::
        op .cc (mov false R.divisor (shift .lsl R.divisor 4)) :: op .cc note₁ :: branch .cc l₁ ::
        label l₂ :: Asm.goto l₂ code)
    (hl₂ : Asm.goto l₂ code =
      op .al (cmp R.divisor (imm 0x80000000)) :: op .cc (cmp R.divisor (reg R.dividend)) ::
        op .cc (mov false R.divisor (shift .lsl R.divisor 1)) :: op .cc note₂ :: branch .cc l₂ ::
        text)
    (h : ∀ k (d : BitVec 32), d.toNat = m * 2 ^ k → (0x80000000#32 ≤ d ∨ a ≤ d) → ∀ n z c v,
      cpu.Ends code text ⟨R.file f a d q (B k), n, z, c, v, mem⟩ Q)
    {k : ℕ} {d : BitVec 32} (hd : d.toNat = m * 2 ^ k) (n z c v : Bool) :
    cpu.Ends code (Asm.goto l₁ code) ⟨R.file f a d q (B k), n, z, c, v, mem⟩ Q := by
  refine ends_align R hm 0x10000000#32 (show 0 < 4 by omega) (by decide) g₁ B hnote₁ hB₁
    (fun _ => True) (fun _ _ _ _ _ _ => trivial) hl₁ ?_ hd trivial n z c v
  intro k d hd _ _ n z c v
  refine Asm.ends_fall rfl ?_
  exact ends_align R hm 0x80000000#32 (show 0 < 1 by omega) (by decide) g₂ B hnote₂ hB₂
    (fun _ => True) (fun _ _ _ _ _ _ => trivial) hl₂ (fun k d hd _ => h k d hd) hd trivial n z c v

end

end Ucore.Arm
