import Ucore.Arm.Udiv

/-!
# Signed division

`__divsi3` divides the absolute values, and then `ip`, which is the exclusive or of the operands,
has the sign of the quotient.  There are three short cuts, for a divisor of 1 or -1 (`10:`), for a
dividend that is not larger than the divisor (`11:`) and for a power of 2 (`12:`).  The result is
always the quotient that is rounded towards 0, as in C (`divsi3_ends`).

Signed division is division of absolute values (`sdiv_eq_abs`), and the absolute value of the most
negative number is `2 ^ 31` as an unsigned number, so there is no exception for it.  For each part
of the text there is one rule:

* `ends_abs` — the two lines that negate an operand if it is negative;
* `ends_one`, `ends_small` and `ends_power` — the short cuts.  For a power of 2 the order of the bit
  is found by three comparisons and a correction (`ends_order_first`, `ends_order`,
  `ends_order_last`);
* `ends_divBody` — `ARM_DIV_BODY`, whose loop is `ends_divLoop`.  The divisor is shifted up by three
  bits at once if it is small;
* `ends_sign` — the sign of the quotient.
-/

set_option autoImplicit false

namespace Ucore.Arm

/-! ## Absolute values -/

/-- A signed division, by the absolute values. -/
theorem sdiv_eq_abs (n d : BitVec 32) :
    n.sdiv d = if (n ^^^ d).msb then -(n.abs / d.abs) else n.abs / d.abs := by
  rw [BitVec.sdiv_eq, BitVec.msb_xor, BitVec.abs_eq, BitVec.abs_eq]
  cases n.msb <;> cases d.msb <;> rfl

theorem abs_ne_zero {x : BitVec 32} (hx : x ≠ 0#32) : x.abs ≠ 0#32 := by
  rw [BitVec.abs_eq]
  split
  · exact fun h => hx (BitVec.neg_eq_zero_iff.1 h)
  · exact hx

/-- A register is replaced by its absolute value. -/
theorem ends_abs {code text : Code} {s : Cpu} {Q : Cpu → Prop} {rd rn : Reg}
    (hn : s.n = (s.reg rn).msb) (hrd : s.reg rd = s.reg rn)
    (h : cpu.Ends code text (s.set rd (s.reg rn).abs) Q) :
    cpu.Ends code (.op .mi (.rsb rd rn (.imm 0)) :: text) s Q := by
  rw [BitVec.abs_eq] at h
  cases hmsb : (s.reg rn).msb with
  | false =>
    have hset : s.set rd (s.reg rn) = s := by
      rw [← hrd, Cpu.set, Function.update_eq_self]
    rw [hmsb, if_neg Bool.false_ne_true, hset] at h
    exact ends_op_neg (hn.trans hmsb) h
  | true =>
    rw [hmsb, if_pos rfl, ← BitVec.zero_sub] at h
    refine ends_op_pos (hn.trans hmsb) ?_
    rw [exec_rsb]
    exact h

/-! ## Powers of 2 -/

/-- The test for powers of 2. -/
theorem exists_bit {d : BitVec 32} (hd : d ≠ 0#32) (h : d &&& (d - 1#32) = 0#32) :
    ∃ k < 32, d = 1#32 <<< k := by
  have hne : d.toNat ≠ 0 := fun h => hd (BitVec.eq_of_toNat_eq h)
  have hsub : (d - 1#32).toNat = d.toNat - 1 := by
    rw [BitVec.toNat_sub_of_le]
    · rfl
    · rw [BitVec.le_def]
      exact Nat.one_le_iff_ne_zero.2 hne
  have hand := congrArg BitVec.toNat h
  rw [BitVec.toNat_and, hsub, BitVec.toNat_zero] at hand
  obtain ⟨k, hk⟩ := (Nat.and_sub_one_eq_zero_iff_isPowerOfTwo hne).1 hand
  have hlt : k < 32 := by
    rw [← Nat.pow_lt_pow_iff_right (show 1 < 2 by omega), ← hk]
    exact d.isLt
  exact ⟨k, hlt, BitVec.eq_of_toNat_eq (hk.trans (toNat_bit hlt).symm)⟩

theorem div_bit {k : ℕ} (hk : k < 32) (x : BitVec 32) : x / 1#32 <<< k = x >>> k := by
  refine BitVec.eq_of_toNat_eq ?_
  rw [BitVec.toNat_udiv, toNat_bit hk, BitVec.toNat_ushiftRight, Nat.shiftRight_eq_div_pow]

theorem bit_le_bit {j k : ℕ} (hj : j < 32) (hk : k < 32) : 1#32 <<< j ≤ 1#32 <<< k ↔ j ≤ k := by
  rw [BitVec.le_def, toNat_bit hj, toNat_bit hk, Nat.pow_le_pow_iff_right (by omega)]

section

open Line Instr Operand

variable (R : DivRegs) {code text : Code} {f : Reg → BitVec 32} {mem : BitVec 32 → BitVec 32}
  {Q : Cpu → Prop} {a q : BitVec 32}

/-- The first step of finding the order of a power of 2. -/
theorem ends_order_first {k : ℕ} {b : BitVec 32} (hk : k < 32)
    (h : ∀ k' o, o + k' = k → k' < 16 → ∀ n z c v, cpu.Ends code text
      ⟨R.file f a (1#32 <<< k') q (BitVec.ofNat 32 o), n, z, c, v, mem⟩ Q) (n z c v : Bool) :
    cpu.Ends code
      (op .al (cmp R.divisor (imm (1#32 <<< 16))) ::
        op .cs (mov false R.divisor (shift .lsr R.divisor 16)) ::
        op .cs (mov false R.curbit (imm 16)) :: op .cc (mov false R.curbit (imm 0)) :: text)
      ⟨R.file f a (1#32 <<< k) q b, n, z, c, v, mem⟩ Q := by
  have hbit : 65536#32 ≤ 1#32 <<< k ↔ 16 ≤ k := bit_le_bit (show 16 < 32 by omega) hk
  by_cases hle : 16 ≤ k
  · simp [hbit, hle, Cpu.set, bit_shiftRight hle hk, h (k - 16) 16 (by omega) (by omega)]
  · simp [hbit, hle, Cpu.set, h k 0 (by omega) (by omega)]

/-- One step of finding the order of a power of 2, which halves its bound. -/
theorem ends_order {j k o : ℕ} (hj : j < 32) (hk : k < 32) (hkj : k < 2 * j)
    (h : ∀ k' o', o' + k' = o + k → k' < j → ∀ n z c v, cpu.Ends code text
      ⟨R.file f a (1#32 <<< k') q (BitVec.ofNat 32 o'), n, z, c, v, mem⟩ Q) (n z c v : Bool) :
    cpu.Ends code
      (op .al (cmp R.divisor (imm (1#32 <<< j))) ::
        op .cs (mov false R.divisor (shift .lsr R.divisor j)) ::
        op .cs (add R.curbit R.curbit (imm (BitVec.ofNat 32 j))) :: text)
      ⟨R.file f a (1#32 <<< k) q (BitVec.ofNat 32 o), n, z, c, v, mem⟩ Q := by
  by_cases hle : j ≤ k
  · have hgo := h (k - j) (o + j) (by omega) (by omega)
    rw [BitVec.ofNat_add] at hgo
    simp [bit_le_bit hj hk, hle, Cpu.set, bit_shiftRight hle hk, hgo]
  · simp [bit_le_bit hj hk, hle, h k o rfl (by omega)]

/-- The last step, for the powers up to 8. -/
theorem ends_order_last {k o : ℕ} (hk : k < 4)
    (h : ∀ d n z c v, cpu.Ends code text
      ⟨R.file f a d q (BitVec.ofNat 32 (o + k)), n, z, c, v, mem⟩ Q) (n z c v : Bool) :
    cpu.Ends code
      (op .al (cmp R.divisor (imm (1#32 <<< 2))) ::
        op .hi (add R.curbit R.curbit (imm 3)) ::
        op .ls (add R.curbit R.curbit (shift .lsr R.divisor 1)) :: text)
      ⟨R.file f a (1#32 <<< k) q (BitVec.ofNat 32 o), n, z, c, v, mem⟩ Q := by
  rw [BitVec.ofNat_add] at h
  rcases (show k = 0 ∨ k = 1 ∨ k = 2 ∨ k = 3 by omega) with rfl | rfl | rfl | rfl
  · simpa [Cpu.set] using h _ _ _ _ _
  · simpa [Cpu.set] using h _ _ _ _ _
  · simpa [Cpu.set] using h _ _ _ _ _
  · simpa [Cpu.set] using h _ _ _ _ _

end

/-! ## The routine -/

/-- The registers of `__divsi3`. -/
def sdivRegs : DivRegs := ⟨.r3, .r1, .r0, .r2, by decide⟩

/-- What `__divsi3` leaves. -/
def SdivResult (s s' : Cpu) : Prop :=
  s'.reg .r0 = (s.reg .r0).sdiv (s.reg .r1) ∧ Returned [.r0, .r1, .r2, .r3, .ip] s s'

section

open Line Instr Operand

variable {code text : Code} {s : Cpu}

/-- The state of `__divsi3`, with the sign of the quotient in `ip`. -/
def sdivState (s : Cpu) (a d q b : BitVec 32) (n z c v : Bool) : Cpu :=
  ⟨sdivRegs.file (Function.update s.reg .ip (s.reg .r0 ^^^ s.reg .r1)) a d q b, n, z, c, v, s.mem⟩

theorem sdivState_set (a d q b x : BitVec 32) (n z c v : Bool) :
    (sdivState s a d q b n z c v).set .r0 x = sdivState s a d x b n z c v :=
  congrArg (fun f => Cpu.mk f n z c v s.mem) (sdivRegs.update_result ..)

theorem sdivState_set_r3 (a d q b x : BitVec 32) (n z c v : Bool) :
    (sdivState s a d q b n z c v).set .r3 x = sdivState s x d q b n z c v :=
  congrArg (fun f => Cpu.mk f n z c v s.mem) (sdivRegs.update_dividend ..)

/-- The routine returns, with `r` in `r0`. -/
theorem sdivResult_of_eq {a d r b x : BitVec 32} (hr : r = (s.reg .r0).sdiv (s.reg .r1))
    (n z c v : Bool) : SdivResult s ⟨Function.update (sdivRegs.file (Function.update s.reg .ip x)
      a d r b) .pc (s.reg .lr), n, z, c, v, s.mem⟩ := by
  refine ⟨hr, rfl, ?_, rfl⟩
  intro r hpc hr
  simp only [List.mem_cons, List.not_mem_nil, or_false, not_or] at hr
  simp [sdivRegs, DivRegs.file, hpc, hr]

/-- The last two lines, where the quotient is negative if the flag `n` is set. -/
theorem ends_negate {a d b q : BitVec 32} {n : Bool}
    (hq : (s.reg .r0).sdiv (s.reg .r1) = if n then -q else q) (z c v : Bool) :
    cpu.Ends code (op .mi (rsb .r0 .r0 (imm 0)) :: Line.ret .al (mov false .pc (reg .lr)) :: text)
      (sdivState s a d q b n z c v) (SdivResult s) := by
  cases n with
  | false => exact ends_op_neg rfl (ends_ret_al (sdivResult_of_eq hq.symm _ _ _ _))
  | true =>
    refine ends_op_pos rfl (ends_ret_al ?_)
    rw [exec_rsb, sdivState_set, value_imm, BitVec.ofNat_eq_ofNat, BitVec.zero_sub]
    exact sdivResult_of_eq hq.symm _ _ _ _

/-- The lines that give the quotient its sign. -/
theorem ends_sign {a d b : BitVec 32} (n z c v : Bool) :
    cpu.Ends code
      (op .al (cmp .ip (imm 0)) :: op .mi (rsb .r0 .r0 (imm 0)) ::
        Line.ret .al (mov false .pc (reg .lr)) :: text)
      (sdivState s a d ((s.reg .r0).abs / (s.reg .r1).abs) b n z c v) (SdivResult s) := by
  refine ends_al ?_
  rw [exec_cmp]
  have hip : (sdivState s a d ((s.reg .r0).abs / (s.reg .r1).abs) b n z c v).reg .ip =
      s.reg .r0 ^^^ s.reg .r1 := rfl
  rw [hip, value_imm, BitVec.ofNat_eq_ofNat, BitVec.sub_zero]
  exact ends_negate (sdiv_eq_abs (s.reg .r0) (s.reg .r1)) _ _ _

theorem sdiv_of_abs_eq_one {n d : BitVec 32} (hd : d.abs = 1#32) :
    n.sdiv d = if d.msb then -n else n := by
  rw [sdiv_eq_abs, hd, BitVec.udiv_one, BitVec.msb_xor, BitVec.abs_eq]
  cases n.msb <;> cases d.msb <;> simp

/-- A divisor of 1 or -1: the quotient is the dividend, with the sign of the divisor. -/
theorem ends_one {a b : BitVec 32} (hone : (s.reg .r1).abs = 1#32) (n z c v : Bool) :
    cpu.Ends code
      (op .al (teq .ip (reg .r0)) :: op .mi (rsb .r0 .r0 (imm 0)) ::
        Line.ret .al (mov false .pc (reg .lr)) :: text)
      (sdivState s a 1#32 (s.reg .r0) b n z c v) (SdivResult s) := by
  have hteq : (s.reg .r0 ^^^ s.reg .r1) ^^^ s.reg .r0 = s.reg .r1 := by
    rw [BitVec.xor_comm (s.reg .r0), BitVec.xor_assoc, BitVec.xor_self, BitVec.xor_zero]
  refine ends_al ?_
  refine ends_negate ?_ _ _ _
  rw [sdiv_of_abs_eq_one hone, ← hteq]
  rfl

theorem sshiftRight_or_one (x : BitVec 32) :
    x.sshiftRight 31 ||| 1#32 = if x.msb then -1#32 else 1#32 := by
  refine BitVec.eq_of_getLsbD_eq fun i hi => ?_
  rw [BitVec.getLsbD_or, BitVec.getLsbD_sshiftRight]
  rcases Nat.eq_zero_or_pos i with rfl | hpos
  · cases x.msb <;> simp
  · have hshift : ¬ 31 + i < 32 := by omega
    cases x.msb with
    | false => simp [hi, hshift]
    | true =>
      rw [if_pos rfl, show -1#32 = BitVec.allOnes 32 from rfl, BitVec.getLsbD_allOnes]
      simp [hi, hshift, Nat.not_le.2 hi]

/-- A dividend that is not larger than the divisor. -/
theorem ends_small {b q : BitVec 32} (hle : (s.reg .r0).abs ≤ (s.reg .r1).abs)
    (habs : (s.reg .r1).abs ≠ 0#32) (n v : Bool) :
    cpu.Ends code
      (op .cc (mov false .r0 (imm 0)) :: op .eq (mov false .r0 (shift .asr .ip 31)) ::
        op .eq (orr .r0 .r0 (imm 1)) :: Line.ret .al (mov false .pc (reg .lr)) :: text)
      (sdivState s (s.reg .r0).abs (s.reg .r1).abs q b n
        (decide ((s.reg .r0).abs = (s.reg .r1).abs)) (decide ((s.reg .r1).abs ≤ (s.reg .r0).abs)) v)
      (SdivResult s) := by
  have hsdiv := sdiv_eq_abs (s.reg .r0) (s.reg .r1)
  rcases Nat.lt_or_eq_of_le (BitVec.le_def.1 hle) with hlt | heq
  · have hzero : (s.reg .r0).abs / (s.reg .r1).abs = 0#32 := by
      refine BitVec.eq_of_toNat_eq ?_
      rw [BitVec.toNat_udiv, Nat.div_eq_of_lt hlt]
      rfl
    rw [hzero, BitVec.neg_zero, ite_self] at hsdiv
    have hz : (s.reg .r0).abs ≠ (s.reg .r1).abs := fun h => hlt.ne (congrArg BitVec.toNat h)
    have hc : ¬ (s.reg .r1).abs ≤ (s.reg .r0).abs := BitVec.not_le.2 (BitVec.lt_def.2 hlt)
    rw [decide_eq_false hz, decide_eq_false hc]
    refine ends_op_pos rfl ?_
    rw [exec_mov, sdivState_set]
    exact ends_op_neg rfl (ends_op_neg rfl (ends_ret_al (sdivResult_of_eq hsdiv.symm _ _ _ _)))
  · rw [BitVec.toNat_inj] at heq
    have hself : (s.reg .r1).abs / (s.reg .r1).abs = 1#32 := by
      rw [BitVec.udiv_self, if_neg (by simpa using habs)]
    rw [heq, hself, ← sshiftRight_or_one] at hsdiv
    rw [decide_eq_true heq, decide_eq_true (heq ▸ BitVec.le_refl _)]
    refine ends_op_neg rfl (ends_op_pos rfl ?_)
    rw [exec_mov, sdivState_set]
    refine ends_op_pos rfl ?_
    rw [exec_orr, sdivState_set]
    exact ends_ret_al (sdivResult_of_eq hsdiv.symm _ _ _ _)

/-- A divisor that is a power of 2. -/
theorem ends_power {k : ℕ} {b : BitVec 32} (hk : k < 32) (hd : (s.reg .r1).abs = 1#32 <<< k)
    (n z c v : Bool) :
    cpu.Ends code (armDiv2Order .r1 .r2 ++
      op .al (cmp .ip (imm 0)) :: op .al (mov false .r0 (shiftReg .lsr .r3 .r2)) ::
      op .mi (rsb .r0 .r0 (imm 0)) :: Line.ret .al (mov false .pc (reg .lr)) :: text)
      (sdivState s (s.reg .r0).abs (s.reg .r1).abs (s.reg .r0) b n z c v) (SdivResult s) := by
  have hlast : ∀ k' o, o + k' = k → k' < 16 → ∀ n z c v, cpu.Ends code
      ((armDiv2Order .r1 .r2).drop 4 ++ op .al (cmp .ip (imm 0)) ::
        op .al (mov false .r0 (shiftReg .lsr .r3 .r2)) :: op .mi (rsb .r0 .r0 (imm 0)) ::
        Line.ret .al (mov false .pc (reg .lr)) :: text)
      (sdivState s (s.reg .r0).abs (1#32 <<< k') (s.reg .r0) (BitVec.ofNat 32 o) n z c v)
      (SdivResult s) := by
    intro k₁ o₁ ho₁ hk₁ n z c v
    refine ends_order sdivRegs (show 8 < 32 by omega) (by omega) hk₁ ?_ n z c v
    intro k₂ o₂ ho₂ hk₂
    refine ends_order sdivRegs (show 4 < 32 by omega) (by omega) hk₂ ?_
    intro k₃ o₃ ho₃ hk₃
    refine ends_order_last sdivRegs hk₃ ?_
    intro d n z c v
    refine ends_al ?_
    rw [exec_cmp, value_imm, BitVec.ofNat_eq_ofNat, BitVec.sub_zero]
    refine ends_al ?_
    rw [exec_mov]
    change cpu.Ends code _ (Cpu.set (sdivState s (s.reg .r0).abs d (s.reg .r0)
      (BitVec.ofNat 32 (o₃ + k₃)) (s.reg .r0 ^^^ s.reg .r1).msb _ _ _) .r0
      ((s.reg .r0).abs >>> ((BitVec.ofNat 32 (o₃ + k₃)).toNat % 256))) _
    rw [sdivState_set, show o₃ + k₃ = k by omega, BitVec.toNat_ofNat, Nat.mod_eq_of_lt (by omega),
      Nat.mod_eq_of_lt (by omega)]
    refine ends_negate ?_ _ _ _
    rw [sdiv_eq_abs, hd, div_bit hk]
  rw [hd]
  exact ends_order_first sdivRegs hk hlast n z c v

/-- A divisor that can be shifted up by 3 bits. -/
theorem toNat_shiftLeft_three {d : BitVec 32} (h : d &&& 0xe0000000#32 = 0#32) :
    (d <<< 3).toNat = d.toNat * 2 ^ 3 := by
  have hshift : (d &&& 0xe0000000#32) >>> 29 = d >>> 29 := by
    refine BitVec.eq_of_getLsbD_eq fun i hi => ?_
    rw [BitVec.getLsbD_ushiftRight, BitVec.getLsbD_ushiftRight, BitVec.getLsbD_and]
    rcases (show i = 0 ∨ i = 1 ∨ i = 2 ∨ 3 ≤ i by omega) with rfl | rfl | rfl | hle
    · simp
    · simp
    · simp
    · rw [BitVec.getLsbD_of_ge d _ (by omega), Bool.false_and]
  have hzero := congrArg BitVec.toNat hshift
  rw [h, BitVec.toNat_ushiftRight, BitVec.toNat_ushiftRight, Nat.shiftRight_eq_div_pow,
    Nat.shiftRight_eq_div_pow, BitVec.toNat_zero] at hzero
  rw [BitVec.toNat_shiftLeft, Nat.shiftLeft_eq, Nat.mod_eq_of_lt (by omega)]

/-- **`ARM_DIV_BODY`** leaves the quotient. -/
theorem ends_divBody (hl₁ : Asm.goto (.num 1 1) code =
      ((armDivBody .r3 .r1 .r0 .r2).drop 5).take 6 ++ Asm.goto (.num 1 2) code)
    (hl₂ : Asm.goto (.num 1 2) code = (armDivBody .r3 .r1 .r0 .r2).drop 11 ++ text)
    (hl₃ : Asm.goto (.num 1 3) code = (armDivBody .r3 .r1 .r0 .r2).drop 18 ++ text)
    {Q : Cpu → Prop} {f : Reg → BitVec 32} {mem : BitVec 32 → BitVec 32} {a d q b : BitVec 32}
    (hd : d ≠ 0#32)
    (h : ∀ a' d' b n z c v, cpu.Ends code text
      ⟨sdivRegs.file f a' d' (a / d) b, n, z, c, v, mem⟩ Q) (n z c v : Bool) :
    cpu.Ends code (armDivBody .r3 .r1 .r0 .r2 ++ text)
      ⟨sdivRegs.file f a d q b, n, z, c, v, mem⟩ Q := by
  have hpos : 0 < d.toNat := Nat.pos_of_ne_zero fun h => hd (BitVec.eq_of_toNat_eq h)
  have hloops : ∀ k d', d'.toNat = d.toNat * 2 ^ k → ∀ n z c v, cpu.Ends code
      (Asm.goto (.num 1 1) code) ⟨sdivRegs.file f a d' q (1#32 <<< k), n, z, c, v, mem⟩ Q := by
    intro k d₀ hd₀ n z c v
    refine ends_aligned sdivRegs hpos (· <<< 4) (· <<< 1) (1#32 <<< ·) (fun _ => rfl)
      (fun _ => rfl) (fun k => (BitVec.shiftLeft_add _ _ _).symm)
      (fun k => (BitVec.shiftLeft_add _ _ _).symm) hl₁ hl₂ ?_ hd₀ n z c v
    intro k d₁ hd₁ halign n z c v
    refine ends_al ?_
    rw [exec_mov]
    change cpu.Ends code _ ⟨Function.update (sdivRegs.file f a d₁ q (1#32 <<< k)) sdivRegs.result
      0#32, _, _, _, _, _⟩ _
    rw [sdivRegs.update_result]
    refine Asm.ends_fall hl₃ ?_
    refine ends_divLoop hl₃ ?_ (lt_of_toNat_eq hpos hd₁) hd₁
      (Quot.start (lt_of_aligned hpos hd₁ halign)) _ _ _ _
    intro a' d' q hq b n z c v
    rw [← BitVec.toNat_udiv, BitVec.toNat_inj] at hq
    exact hq ▸ h a' d' b n z c v
  have hfall : Asm.goto (.num 1 1) code = (armDivBody .r3 .r1 .r0 .r2).drop 5 ++ text := by
    rw [hl₁, hl₂]
    rfl
  have hset (d' b' x : BitVec 32) : Function.update (sdivRegs.file f a d' q b') .r1 x =
      sdivRegs.file f a x q b' := sdivRegs.update_divisor ..
  have hset' (d' b' x : BitVec 32) : Function.update (sdivRegs.file f a d' q b') .r2 x =
      sdivRegs.file f a d' q x := sdivRegs.update_curbit ..
  refine ends_al ?_
  change cpu.Ends code _ ⟨sdivRegs.file f a d q b, _, d &&& 0xe0000000#32 == 0#32, _, _, mem⟩ Q
  by_cases htop : d &&& 0xe0000000#32 = 0#32
  · rw [beq_iff_eq.2 htop]
    refine ends_op_pos rfl (ends_op_pos rfl (ends_op_neg rfl (Asm.ends_fall hfall ?_)))
    rw [exec_mov, exec_mov, Cpu.set, Cpu.set, hset, hset']
    exact hloops 3 (d <<< 3) (toNat_shiftLeft_three htop) _ _ _ _
  · rw [beq_eq_false_iff_ne.2 htop]
    refine ends_op_neg rfl (ends_op_neg rfl (ends_op_pos rfl (Asm.ends_fall hfall ?_)))
    rw [exec_mov, Cpu.set, hset']
    exact hloops 0 d (Nat.mul_one _).symm _ _ _ _

end

theorem divsi3_ends (div0 : Code) (ret : BitVec 32) {s : Cpu} (hs : s.reg .r1 ≠ 0#32) :
    cpu.Ends (divsi3 div0 ret) (divsi3 div0 ret) s (SdivResult s) := by
  have habs : (s.reg .r1).abs ≠ 0#32 := abs_ne_zero hs
  have hreg : Function.update (Function.update (Function.update (Function.update s.reg .ip
      (s.reg .r0 ^^^ s.reg .r1)) .r1 (s.reg .r1).abs) .r2 ((s.reg .r1).abs - 1#32)) .r3
      (s.reg .r0) = (sdivState s (s.reg .r0) (s.reg .r1).abs (s.reg .r0)
        ((s.reg .r1).abs - 1#32) true true true true).reg := by
    funext r
    cases r <;> rfl
  change cpu.Ends _ (_ :: _ :: _ :: _ :: _ :: _ :: _ :: _ :: _ :: _ :: _ :: _ :: _) s _
  refine ends_al ?_
  rw [exec_cmp, value_imm, BitVec.ofNat_eq_ofNat, BitVec.sub_zero]
  refine ends_al (ends_branch_neg (decide_eq_false hs) (ends_abs rfl rfl (ends_al ?_)))
  rw [exec_subs, value_imm, BitVec.ofNat_eq_ofNat]
  change cpu.Ends _ _ ⟨Function.update (Function.update (Function.update s.reg .ip
    (s.reg .r0 ^^^ s.reg .r1)) .r1 (s.reg .r1).abs) .r2 ((s.reg .r1).abs - 1#32), _,
    decide ((s.reg .r1).abs = 1#32), _, _, s.mem⟩ _
  by_cases hone : (s.reg .r1).abs = 1#32
  · refine ends_branch_pos (decide_eq_true hone) ?_
    have hfile : Function.update (Function.update (Function.update s.reg .ip
        (s.reg .r0 ^^^ s.reg .r1)) .r1 (s.reg .r1).abs) .r2 ((s.reg .r1).abs - 1#32) =
        (sdivState s (s.reg .r3) (s.reg .r1).abs (s.reg .r0) ((s.reg .r1).abs - 1#32)
          true true true true).reg := by
      funext r
      cases r <;> rfl
    rw [hfile, hone]
    exact ends_one hone _ _ _ _
  · refine ends_branch_neg (decide_eq_false hone) (ends_al ?_)
    rw [exec_movs, value_reg]
    change cpu.Ends _ _ ⟨Function.update (Function.update (Function.update (Function.update s.reg .ip
      (s.reg .r0 ^^^ s.reg .r1)) .r1 (s.reg .r1).abs) .r2 ((s.reg .r1).abs - 1#32)) .r3
      (s.reg .r0), (s.reg .r0).msb, _, _, _, s.mem⟩ _
    rw [hreg]
    change cpu.Ends _ _ (sdivState s (s.reg .r0) (s.reg .r1).abs (s.reg .r0)
      ((s.reg .r1).abs - 1#32) (s.reg .r0).msb _ _ _) _
    refine ends_abs rfl rfl ?_
    rw [sdivState_set_r3]
    refine ends_al ?_
    rw [exec_cmp, value_reg]
    change cpu.Ends _ _ (sdivState s (s.reg .r0).abs (s.reg .r1).abs (s.reg .r0)
      ((s.reg .r1).abs - 1#32) _ (decide ((s.reg .r0).abs = (s.reg .r1).abs))
      (decide ((s.reg .r1).abs ≤ (s.reg .r0).abs)) _) _
    by_cases hle : (s.reg .r0).abs ≤ (s.reg .r1).abs
    · exact ends_branch_pos ((not_le_or_eq _ _).trans (decide_eq_true hle)) (ends_small hle habs _ _)
    · refine ends_branch_neg ((not_le_or_eq _ _).trans (decide_eq_false hle)) (ends_al ?_)
      by_cases hpow : (s.reg .r1).abs &&& ((s.reg .r1).abs - 1#32) = 0#32
      · refine ends_branch_pos (beq_iff_eq.2 hpow) ?_
        obtain ⟨k, hk, hbit⟩ := exists_bit habs hpow
        exact ends_power hk hbit _ _ _ _
      · refine ends_branch_neg (beq_eq_false_iff_ne.2 hpow) ?_
        exact ends_divBody rfl rfl rfl habs (fun _ _ _ n z c v => ends_sign n z c v) _ _ _ _

end Ucore.Arm
