import Ucore.Arm.Udiv

/-!
# The unsigned remainder

`__umodsi3` keeps in `overdone` which trials have subtracted, and when it is done it adds again what
the last round has subtracted below the lowest bit.  A round may also be the last one because
nothing is left of the dividend, and the text says that then nothing is added, "since the bit in ip
will not be in the bottom nibble".  But the bit of a trial may then be one of the top three bits,
which are those that are looked at: if the divisor was shifted up by 30 or 31, something is added to
the remainder 0.  There are 22 pairs of operands for which this happens (`umodFaults`), and all
other remainders are right (`umodsi3_ends`).

## The plan

The routine is followed exactly, faults included, and arithmetic decides afterwards when the result
is the remainder.

* `Left n m k i a excess` is what holds after `i` trials of a round: `a` is what is left, less the
  `excess` that was subtracted below the lowest bit.  `Left.trial` is one trial.
* The bits that a round leaves in `overdone` are rotated (`overdone_test`), and `ends_fixup` says
  what the lines at the end add: `fixup`, a function of the last bit and of the three trials that
  may have gone too far.
* `LastRound` is what is known when the loop ends, and `ends_umodLoop` is the loop.  `Rounds` says
  how far it has come, which is needed because a loop that stops early has not seen the lower bits.
* `LastRound.fixup_of_lt` — a last round at the lower end is repaired; `LastRound.fixup_of_zero` —
  one that ends early is not touched unless its bit is a top bit.
* `LastRound.fixup_eq_iff` — the result is the remainder unless the operands are `Mistaken`, and
  `mem_umodFaults_iff` lists these: the shift has to be 30 or 31, so the divisor is at most 3, which
  leaves few enough cases to try them all.
-/

set_option autoImplicit false

namespace Ucore.Arm

/-! ## Trials -/

/-- `x`, if a trial has subtracted it. -/
def taken (t : Bool) (x : BitVec 32) : BitVec 32 := if t then x else 0#32

theorem sub_taken (p : Prop) [Decidable p] (a x : BitVec 32) :
    a - taken (decide p) x = if p then a - x else a := by
  by_cases hp : p <;> simp [taken, hp]

/-- `i` trials of a round that began at the bit `k` have been made.  If there were that many bits
`a` is left, and otherwise `a` and the `excess` that was subtracted are the remainder. -/
def Left (n m k i : ℕ) (a excess : BitVec 32) : Prop :=
  if i ≤ k then excess = 0#32 ∧ ∃ q, Quot n m (k + 1 - i) q a.toNat
  else (a + excess).toNat = n % m

namespace Left

variable {n m k i : ℕ} {a d excess : BitVec 32}

theorem of_quot {q : ℕ} (h : Quot n m (k + 1 - i) q a.toNat) (hi : i ≤ k + 1) :
    Left n m k i a 0#32 := by
  unfold Left
  split
  · exact ⟨rfl, q, h⟩
  · next hk =>
    rw [show k + 1 - i = 0 by omega] at h
    rw [BitVec.add_zero]
    exact h.exact.2.symm

/-- **One trial of a round.** -/
theorem trial (h : Left n m k i a excess) (hd : d.toNat = m * 2 ^ k) :
    Left n m k (i + 1) (a - taken (decide (d >>> i ≤ a)) (d >>> i))
      (excess + taken (decide (k < i) && decide (d >>> i ≤ a)) (d >>> i)) := by
  by_cases hi : i ≤ k
  · rw [Left, if_pos hi, show k + 1 - i = k - i + 1 by omega] at h
    obtain ⟨rfl, q, hq⟩ := h
    have hdi := toNat_divisor hd hi
    have hk : ¬ k < i := by omega
    simp only [hk, decide_false, Bool.false_and, taken, Bool.false_eq_true, if_false,
      BitVec.add_zero, decide_eq_true_eq]
    by_cases hle : d >>> i ≤ a
    · rw [if_pos hle]
      refine of_quot (q := q + 2 ^ (k - i)) ?_ (by omega)
      rw [show k + 1 - (i + 1) = k - i by omega, BitVec.toNat_sub_of_le hle, hdi]
      exact hq.trial_pos (hdi ▸ BitVec.le_def.1 hle)
    · rw [if_neg hle, BitVec.sub_zero]
      refine of_quot (q := q) ?_ (by omega)
      rw [show k + 1 - (i + 1) = k - i by omega]
      exact hq.trial_neg (hdi ▸ BitVec.lt_def.1 (BitVec.not_le.1 hle))
  · have hk : k < i := by omega
    rw [Left, if_neg hi] at h
    rw [Left, if_neg (by omega), ← h]
    simp only [hk, decide_true, Bool.true_and]
    congr 1
    generalize taken (decide (d >>> i ≤ a)) (d >>> i) = x
    rw [BitVec.add_comm excess x, ← BitVec.add_assoc, BitVec.sub_add_cancel]

/-- Which bit of the quotient a trial finds. -/
theorem testBit (h : Left n m k i a excess) (hi : i ≤ k) (hd : d.toNat = m * 2 ^ k) :
    (n / m).testBit (k - i) = decide (d >>> i ≤ a) := by
  rw [Left, if_pos hi, show k + 1 - i = k - i + 1 by omega] at h
  obtain ⟨-, q, hq⟩ := h
  rw [hq.testBit, decide_eq_decide, BitVec.le_def, toNat_divisor hd hi]

end Left

/-! ## What is added again -/

/-- `overdone` at the end of a round that began at the bit `k`. -/
def overdone (k : ℕ) (t₁ t₂ t₃ : Bool) : BitVec 32 :=
  taken t₁ ((1#32 <<< k).rotateRight 1) ||| taken t₂ ((1#32 <<< k).rotateRight 2) |||
    taken t₃ ((1#32 <<< k).rotateRight 3)

/-- Whether the bit of the `i`-th trial is one of the top three. -/
def isTop (k i : ℕ) : Bool := decide (29 ≤ (k + 32 - i) % 32)

theorem overdone_test (k : Fin 32) (t₁ t₂ t₃ : Bool) (i : Fin 3) :
    (overdone k t₁ t₂ t₃ &&& 0xe0000000#32) &&& (1#32 <<< k.val).rotateRight (i + 1) ≠ 0#32 ↔
      ((if i = 0 then t₁ else if i = 1 then t₂ else t₃) && isTop k (i + 1)) = true := by
  revert k t₁ t₂ t₃ i
  decide +kernel

section

open Line Instr Operand

variable {code text : Code} {f : Reg → BitVec 32} {mem : BitVec 32 → BitVec 32}
  {Q : Cpu → Prop} {a d o b : BitVec 32} {n m k : ℕ}

theorem update_ip (x : BitVec 32) : Function.update (udivRegs.file f a d o b) .ip x =
    udivRegs.file (Function.update f .ip x) a d o b := by
  funext r
  cases r <;> rfl

/-- One line that adds again. -/
theorem ends_addAgain (i : ℕ) {t : Bool} (ht : o &&& (f .ip).rotateRight i ≠ 0#32 ↔ t = true)
    (h : ∀ n z c v, cpu.Ends code text
      ⟨udivRegs.file f (a + taken t (d >>> i)) d o b, n, z, c, v, mem⟩ Q) (n z c v : Bool) :
    cpu.Ends code
      (op .al (tst .r2 (shift .ror .ip i)) :: op .ne (add .r0 .r0 (shift .lsr .r1 i)) :: text)
      ⟨udivRegs.file f a d o b, n, z, c, v, mem⟩ Q := by
  have hip : udivRegs.file f a d o b .ip = f .ip := rfl
  have hfile : udivRegs.file f a d o b .r2 = o := rfl
  cases t with
  | false =>
    have hz : o &&& (f .ip).rotateRight i = 0#32 := by simpa using ht
    simpa [Cpu.setFlags, hip, hfile, hz, taken] using h _ true _ _
  | true =>
    have hz : (o &&& (f .ip).rotateRight i == 0#32) = false := beq_eq_false_iff_ne.2 (ht.2 rfl)
    have hset (x : BitVec 32) : Function.update (udivRegs.file f a d o b) .r0 x =
        udivRegs.file f x d o b := udivRegs.update_dividend ..
    have hr₀ : udivRegs.file f a d o b .r0 = a := rfl
    have hr₁ : udivRegs.file f a d o b .r1 = d := rfl
    simpa [Cpu.setFlags, Cpu.set, hip, hfile, hz, hset, hr₀, hr₁, taken] using h _ false _ _

/-- What the routine returns behind its loop. -/
def fixup (k : ℕ) (a d : BitVec 32) (t₁ t₂ t₃ : Bool) : BitVec 32 :=
  a + taken (t₃ && isTop k 3) (d >>> 3) + taken (t₂ && isTop k 2) (d >>> 2) +
    taken (t₁ && isTop k 1) (d >>> 1)

/-- The lines behind the loop. -/
theorem ends_fixup (hk : k < 32) (hip : f .ip = 1#32 <<< k) (t₁ t₂ t₃ : Bool)
    (h : ∀ o b n z c v, Q ⟨Function.update (udivRegs.file f (fixup k a d t₁ t₂ t₃) d o b) .pc
      (f .lr), n, z, c, v, mem⟩) (n z c v : Bool) :
    cpu.Ends code (
      op .al (ands .r2 .r2 (imm 0xe0000000)) ::
      Line.ret .eq (mov false .pc (reg .lr)) ::
      op .al (tst .r2 (shift .ror .ip 3)) ::
      op .ne (add .r0 .r0 (shift .lsr .r1 3)) ::
      op .al (tst .r2 (shift .ror .ip 2)) ::
      op .ne (add .r0 .r0 (shift .lsr .r1 2)) ::
      op .al (tst .r2 (shift .ror .ip 1)) ::
      op .ne (add .r0 .r0 (shift .lsr .r1 1)) ::
      Line.ret .al (mov false .pc (reg .lr)) :: text)
      ⟨udivRegs.file f a d (overdone k t₁ t₂ t₃) b, n, z, c, v, mem⟩ Q := by
  have htest (i : Fin 3) := overdone_test ⟨k, hk⟩ t₁ t₂ t₃ i
  have hset (x : BitVec 32) : Function.update (udivRegs.file f a d (overdone k t₁ t₂ t₃) b) .r2 x =
      udivRegs.file f a d x b := udivRegs.update_result ..
  have hlr (a d o b : BitVec 32) : udivRegs.file f a d o b .lr = f .lr := rfl
  refine ends_al ?_
  change cpu.Ends code _ ⟨Function.update (udivRegs.file f a d (overdone k t₁ t₂ t₃) b) .r2
    (overdone k t₁ t₂ t₃ &&& 0xe0000000#32), _, overdone k t₁ t₂ t₃ &&& 0xe0000000#32 == 0#32,
    _, _, mem⟩ Q
  rw [hset]
  by_cases hz : overdone k t₁ t₂ t₃ &&& 0xe0000000#32 = 0#32
  · -- nothing is added
    have hnone : fixup k a d t₁ t₂ t₃ = a := by
      have h₁ : (t₁ && isTop k 1) = false := by simpa [hz] using htest 0
      have h₂ : (t₂ && isTop k 2) = false := by simpa [hz] using htest 1
      have h₃ : (t₃ && isTop k 3) = false := by simpa [hz] using htest 2
      simp [fixup, h₁, h₂, h₃, taken]
    simpa [hz, Cpu.set, hnone, hlr] using h 0#32 b _ true _ _
  · refine ends_ret_neg (beq_eq_false_iff_ne.2 hz) ?_
    refine ends_addAgain 3 (t := t₃ && isTop k 3) ?_ ?_ _ _ _ _
    · rw [hip]
      exact htest 2
    intro n z c v
    refine ends_addAgain 2 (t := t₂ && isTop k 2) ?_ ?_ _ _ _ _
    · rw [hip]
      exact htest 1
    intro n z c v
    refine ends_addAgain 1 (t := t₁ && isTop k 1) ?_ ?_ _ _ _ _
    · rw [hip]
      exact htest 0
    intro n z c v
    exact (Asm.ends_ret _ _).2 (h _ b n z c v)

/-! ## The loop -/

/-- The lines of the loop. -/
def umodLoop : Code := [
  op .al (mov false .r2 (imm 0)),
  op .al (cmp .r0 (reg .r1)),
  op .cs (sub .r0 .r0 (reg .r1)),
  op .al (cmp .r0 (shift .lsr .r1 1)),
  op .cs (sub .r0 .r0 (shift .lsr .r1 1)),
  op .cs (orr .r2 .r2 (shift .ror .r3 1)),
  op .al (cmp .r0 (shift .lsr .r1 2)),
  op .cs (sub .r0 .r0 (shift .lsr .r1 2)),
  op .cs (orr .r2 .r2 (shift .ror .r3 2)),
  op .al (cmp .r0 (shift .lsr .r1 3)),
  op .cs (sub .r0 .r0 (shift .lsr .r1 3)),
  op .cs (orr .r2 .r2 (shift .ror .r3 3)),
  op .al (mov false .ip (reg .r3)),
  op .al (cmp .r0 (imm 0)),
  op .ne (mov true .r3 (shift .lsr .r3 4)),
  op .ne (mov false .r1 (shift .lsr .r1 4)),
  branch .ne .loop3]

/-- The end of the last round: `excess` was subtracted too much, and `t₁`, `t₂` and `t₃` are what the
trials below the first have found. -/
structure LastRound (n m k : ℕ) (a d excess : BitVec 32) (t₁ t₂ t₃ : Bool) : Prop where
  left : Left n m k 4 a excess
  excess : excess = taken (decide (k < 1) && t₁) (d >>> 1) + taken (decide (k < 2) && t₂) (d >>> 2) +
    taken (decide (k < 3) && t₃) (d >>> 3)
  bit₁ : 1 ≤ k → t₁ = (n / m).testBit (k - 1)
  bit₂ : 2 ≤ k → t₂ = (n / m).testBit (k - 2)

variable {R : DivRegs}

/-- A trial, with what it has found. -/
theorem Left.ends_trial {i : ℕ} {excess q : BitVec 32} (h : Left n m k i a excess)
    (hd : d.toNat = m * 2 ^ k) (bit : BitVec 32 → BitVec 32) {divisor curbit : Operand}
    (hdivisor : ∀ s, (divisor.value s).1 = s.reg R.divisor >>> i)
    (hcurbit : ∀ s, (curbit.value s).1 = bit (s.reg R.curbit))
    (hnext : ∀ t a, Left n m k (i + 1) a (excess + taken (decide (k < i) && t) (d >>> i)) →
      (i ≤ k → t = (n / m).testBit (k - i)) → ∀ n' z c v,
      cpu.Ends code text ⟨R.file f a d (q ||| taken t (bit b)) b, n', z, c, v, mem⟩ Q)
    (n' z c v : Bool) :
    cpu.Ends code
      (op .al (cmp R.dividend divisor) :: op .cs (sub R.dividend R.dividend divisor) ::
        op .cs (orr R.result R.result curbit) :: text)
      ⟨R.file f a d q b, n', z, c, v, mem⟩ Q := by
  have hstep := hnext _ _ (h.trial hd) fun hi => (h.testBit hi hd).symm
  refine Arm.ends_trial R i bit hdivisor hcurbit ?_ n' z c v
  rw [← sub_taken]
  by_cases hle : d >>> i ≤ a
  · simpa [taken, hle] using hstep
  · simpa [taken, hle] using hstep

/-- One round of the loop. -/
theorem ends_umodLoop_round {q : ℕ} {x y : BitVec 32} (hk : k < 32) (hd : d.toNat = m * 2 ^ k)
    (hq : Quot n m (k + 1) q a.toNat)
    (hloop : 4 ≤ k → ∀ a q o x, a ≠ 0#32 → Quot n m (k - 4 + 1) q a.toNat → ∀ n' z c v,
      cpu.Ends code (Asm.goto .loop3 code) ⟨udivRegs.file (Function.update f .ip x) a (d >>> 4) o
        (1#32 <<< (k - 4)), n', z, c, v, mem⟩ Q)
    (hexit : ∀ a excess t₁ t₂ t₃ b, LastRound n m k a d excess t₁ t₂ t₃ → (k < 4 ∨ a = 0#32) →
      ∀ n' z c v, cpu.Ends code text ⟨udivRegs.file (Function.update f .ip (1#32 <<< k)) a d
        (overdone k t₁ t₂ t₃) b, n', z, c, v, mem⟩ Q) (n' z c v : Bool) :
    cpu.Ends code (umodLoop ++ text)
      ⟨udivRegs.file (Function.update f .ip x) a d y (1#32 <<< k), n', z, c, v, mem⟩ Q := by
  refine ends_al ?_
  rw [exec_mov, value_imm, Cpu.set]
  change cpu.Ends code _ ⟨Function.update (udivRegs.file _ a d y (1#32 <<< k)) udivRegs.result 0#32,
    _, _, _, _, mem⟩ Q
  rw [udivRegs.update_result]
  have h₀ : Left n m k 0 a 0#32 := Left.of_quot hq (by omega)
  refine ends_sub udivRegs 0 (fun _ => (BitVec.ushiftRight_zero _).symm) ?_ _ _ _ _
  intro n' z c v
  have h₁ := h₀.trial hd
  rw [sub_taken, show taken (decide (k < 0) && _) _ = 0#32 by simp [taken], BitVec.add_zero] at h₁
  refine h₁.ends_trial (R := udivRegs) hd (BitVec.rotateRight · 1) (fun _ => rfl) (fun _ => rfl) ?_ _ _ _ _
  intro t₁ a₂ h₂ hbit₁
  refine h₂.ends_trial (R := udivRegs) hd (BitVec.rotateRight · 2) (fun _ => rfl) (fun _ => rfl) ?_
  intro t₂ a₃ h₃ hbit₂
  refine h₃.ends_trial (R := udivRegs) hd (BitVec.rotateRight · 3) (fun _ => rfl) (fun _ => rfl) ?_
  intro t₃ a₄ h₄ _ n' z c v
  have hlast : LastRound n m k a₄ d _ t₁ t₂ t₃ := ⟨h₄, by rw [BitVec.zero_add], hbit₁, hbit₂⟩
  refine ends_al ?_
  change cpu.Ends code (op .al (cmp udivRegs.dividend (imm 0)) ::
    op .ne (mov true udivRegs.curbit (shift .lsr udivRegs.curbit 4)) ::
    op .ne (mov false udivRegs.divisor (shift .lsr udivRegs.divisor 4)) :: branch .ne .loop3 :: text)
    ⟨Function.update (udivRegs.file (Function.update f .ip x) a₄ d _ (1#32 <<< k)) .ip (1#32 <<< k),
      _, _, _, _, mem⟩ Q
  rw [update_ip, Function.update_idem, BitVec.zero_or]
  refine ends_next hk ?_ ?_ _ _ _ _
  · intro hstop b
    exact hexit _ _ _ _ _ b hlast hstop.symm
  · intro hmore ha n' z c v
    rw [Left, if_pos hmore, show k + 1 - 4 = k - 4 + 1 by omega] at h₄
    obtain ⟨-, q, hq⟩ := h₄
    exact hloop hmore _ q _ _ ha hq n' z c v

/-- Which round was the last one: the first, or a later one, and then the first has left something. -/
def Rounds (n m k₀ k : ℕ) : Prop := k = k₀ ∨ k + 4 ≤ k₀ ∧ ¬ m * 2 ^ (k₀ - 3) ∣ n

/-- **The loop** ends with a last round. -/
theorem ends_umodLoop (hl : Asm.goto .loop3 code = umodLoop ++ text) {k₀ q : ℕ} {x y : BitVec 32}
    (hexit : ∀ k a d excess t₁ t₂ t₃ b, k < 32 → d.toNat = m * 2 ^ k →
      LastRound n m k a d excess t₁ t₂ t₃ → (k < 4 ∨ a = 0#32) → Rounds n m k₀ k → ∀ n' z c v, cpu.Ends code text
        ⟨udivRegs.file (Function.update f .ip (1#32 <<< k)) a d (overdone k t₁ t₂ t₃) b,
          n', z, c, v, mem⟩ Q)
    (hk : k₀ < 32) (hd : d.toNat = m * 2 ^ k₀) (hq : Quot n m (k₀ + 1) q a.toNat)
    (n' z c v : Bool) :
    cpu.Ends code (Asm.goto .loop3 code)
      ⟨udivRegs.file (Function.update f .ip x) a d y (1#32 <<< k₀), n', z, c, v, mem⟩ Q := by
  refine Asm.ends_loop Label.loop3 (fun k (s : Cpu) => ∃ a d q x y n' z c v, k < 32 ∧ d.toNat = m * 2 ^ k ∧
    Quot n m (k + 1) q a.toNat ∧ Rounds n m k₀ k ∧
    s = ⟨udivRegs.file (Function.update f .ip x) a d y (1#32 <<< k), n', z, c, v, mem⟩) ?_
    ⟨a, d, q, x, y, n', z, c, v, hk, hd, hq, .inl rfl, rfl⟩
  rintro k _ ⟨a, d, q, x, y, n', z, c, v, hk, hd, hq, hrounds, rfl⟩ ih
  rw [hl]
  refine ends_umodLoop_round hk hd hq ?_ ?_ n' z c v
  · intro hmore a q o x ha hleft n' z c v
    refine ih (k - 4) _ (by omega)
      ⟨a, _, q, x, o, n', z, c, v, by omega, toNat_divisor hd hmore, hleft, .inr ?_, rfl⟩
    rcases hrounds with hfirst | ⟨hle, hdvd⟩
    · refine ⟨by omega, fun hdvd => ha (BitVec.eq_of_toNat_eq ?_)⟩
      rw [← hfirst, show k - 3 = k - 4 + 1 by omega] at hdvd
      exact hleft.eq_zero_iff.2 hdvd
    · exact ⟨by omega, hdvd⟩
  · intro a excess t₁ t₂ t₃ b hlast hstop n' z c v
    exact hexit k a d excess t₁ t₂ t₃ b hk hd hlast hstop hrounds n' z c v

end

/-! ## The remainder -/

/-- The trials of a first round at the bit `k` that are taken for trials of a last round. -/
def Mistaken (n m k : ℕ) : Prop :=
  k = 30 ∧ (n / m).testBit 29 ∨ k = 31 ∧ ((n / m).testBit 30 ∨ (n / m).testBit 29)

instance (n m k : ℕ) : Decidable (Mistaken n m k) := inferInstanceAs (Decidable (_ ∨ _))

section

variable {n m k k₀ : ℕ} {a d excess : BitVec 32} {t₁ t₂ t₃ : Bool}

theorem isTop_of_lt {i : ℕ} (hk : k < 4) (hi : 0 < i) (hi' : i < 4) :
    isTop k i = decide (k < i) := by
  rw [isTop, decide_eq_decide]
  omega

/-- A round that really is the last one. -/
theorem LastRound.fixup_of_lt (h : LastRound n m k a d excess t₁ t₂ t₃) (hk : k < 4) :
    (fixup k a d t₁ t₂ t₃).toNat = n % m := by
  have hleft := h.left
  rw [Left, if_neg (by omega), h.excess] at hleft
  rw [← hleft]
  congr 1
  rw [fixup, isTop_of_lt hk (by omega) (by omega), isTop_of_lt hk (by omega) (by omega),
    isTop_of_lt hk (by omega) (by omega), Bool.and_comm t₁, Bool.and_comm t₂, Bool.and_comm t₃]
  ac_rfl

/-- A round that is the last one since nothing is left. -/
theorem LastRound.fixup_of_zero (h : LastRound n m k 0#32 d excess t₁ t₂ t₃) (hk : 4 ≤ k)
    (hk' : k < 32) (hd : d.toNat = m * 2 ^ k) :
    m * 2 ^ (k - 3) ∣ n ∧ ((fixup k 0#32 d t₁ t₂ t₃).toNat = n % m ↔ ¬ Mistaken n m k) := by
  have hleft := h.left
  rw [Left, if_pos hk] at hleft
  obtain ⟨-, q, hq⟩ := hleft
  have hpos := hq.pos
  refine ⟨by simpa [show k + 1 - 4 = k - 3 by omega] using hq.eq_zero_iff.1 rfl, ?_⟩
  rw [(Quot.done hq).2]
  have htop (i : ℕ) (hi : 0 < i) (hi' : i < 4) : isTop k i = decide (29 ≤ k - i) := by
    rw [isTop, decide_eq_decide]
    omega
  have hzero (x : BitVec 32) : x.toNat = 0 ↔ x = 0#32 := BitVec.toNat_inj (y := 0#32)
  have hne (i : ℕ) (hi : i < 4) : d >>> i ≠ 0#32 := by
    rw [Ne, ← hzero, toNat_divisor hd (by omega)]
    exact (Nat.mul_pos hpos (Nat.two_pow_pos _)).ne'
  have hsum : d >>> 2 + d >>> 1 ≠ 0#32 := by
    have hlt := d.isLt
    have hone := hne 1 (by omega)
    rw [Ne, ← hzero, BitVec.toNat_ushiftRight, Nat.shiftRight_eq_div_pow] at hone
    rw [Ne, ← hzero, BitVec.toNat_add, BitVec.toNat_ushiftRight, BitVec.toNat_ushiftRight,
      Nat.shiftRight_eq_div_pow, Nat.shiftRight_eq_div_pow, Nat.mod_eq_of_lt (by omega)]
    omega
  rw [hzero, fixup, htop 1 (by omega) (by omega), htop 2 (by omega) (by omega),
    htop 3 (by omega) (by omega), h.bit₁ (by omega), h.bit₂ (by omega), Mistaken]
  rcases (show k ≤ 29 ∨ k = 30 ∨ k = 31 by omega) with hlow | rfl | rfl
  · have hnot (i : ℕ) (hi : 0 < i) : ¬ 29 ≤ k - i := by omega
    simp [hnot, taken, show k ≠ 30 by omega, show k ≠ 31 by omega]
  · generalize (n / m).testBit 29 = bit₁
    cases bit₁ <;> simp [taken, hne 1]
  · generalize (n / m).testBit 30 = bit₁, (n / m).testBit 29 = bit₂
    cases bit₁ <;> cases bit₂ <;> simp [taken, hne 1, hne 2, hsum]

end

/-- The operands for which the remainder is wrong. -/
def umodFaults : List (ℕ × ℕ) :=
  [5, 6, 7, 10, 11, 12, 13, 14, 15].map (fun x => (x * 2 ^ 28, 1)) ++
    [5, 6, 7].map (fun x => (x * 2 ^ 27, 1)) ++
    [5, 6, 7, 12, 13, 14, 15].map (fun x => (x * 2 ^ 28, 2)) ++
    [5, 6, 7].map (fun x => (3 * x * 2 ^ 27, 3))

/-- The divisor is aligned with the dividend, at the bit `k`. -/
structure Aligned (n m k : ℕ) : Prop where
  lt : m * 2 ^ k < 2 ^ 32
  start : k ≤ 28 ∨ m * 2 ^ (k - 1) < 2 ^ 31 ∧ m * 2 ^ (k - 1) < n
  reached : 2 ^ 31 ≤ m * 2 ^ k ∨ n ≤ m * 2 ^ k

instance (n m k : ℕ) : Decidable (Aligned n m k) :=
  decidable_of_iff (m * 2 ^ k < 2 ^ 32 ∧ (k ≤ 28 ∨ m * 2 ^ (k - 1) < 2 ^ 31 ∧ m * 2 ^ (k - 1) < n) ∧
    (2 ^ 31 ≤ m * 2 ^ k ∨ n ≤ m * 2 ^ k)) ⟨fun h => ⟨h.1, h.2.1, h.2.2⟩, fun h => ⟨h.1, h.2, h.3⟩⟩

/-- A fault, with the dividend as a multiple of the divisor. -/
theorem mem_umodFaults (k : Fin 32) (m : Fin 4) (x : Fin 32) (hm : 0 < m.val) (hk : 30 ≤ k.val)
    (hn : m.val * 2 ^ (k.val - 3) * x.val < 2 ^ 32)
    (h : Aligned (m.val * 2 ^ (k.val - 3) * x.val) m k)
    (hmistaken : Mistaken (m.val * 2 ^ (k.val - 3) * x.val) m k) :
    (m.val * 2 ^ (k.val - 3) * x.val, m.val) ∈ umodFaults := by
  revert k m x
  decide +kernel

theorem mistaken_of_mem : ∀ p ∈ umodFaults, ∀ k < 32, Aligned p.1 p.2 k →
    p.2 * 2 ^ (k - 3) ∣ p.1 ∧ Mistaken p.1 p.2 k := by
  decide +kernel

/-- **The faults**, as what the first round begins with. -/
theorem mem_umodFaults_iff {n m k : ℕ} (hn : n < 2 ^ 32) (hm : 0 < m) (h : Aligned n m k) :
    (n, m) ∈ umodFaults ↔ m * 2 ^ (k - 3) ∣ n ∧ Mistaken n m k := by
  have hlt := h.lt
  have hk := lt_of_mul_lt hm hlt
  constructor
  · exact fun hmem => mistaken_of_mem _ hmem k hk h
  · rintro ⟨⟨x, rfl⟩, hmistaken⟩
    have htop : 30 ≤ k := by
      rcases hmistaken with ⟨rfl, -⟩ | ⟨rfl, -⟩ <;> omega
    have hpow : 2 ^ 27 ≤ 2 ^ (k - 3) := Nat.pow_le_pow_right (by omega) (by omega)
    have hpow' : 2 ^ 30 ≤ 2 ^ k := Nat.pow_le_pow_right (by omega) htop
    have hfour : m < 4 := by
      have hle : m * 2 ^ 30 ≤ m * 2 ^ k := Nat.mul_le_mul_left m hpow'
      omega
    have hx : x < 32 := by
      have hle : 1 * 2 ^ 27 * x ≤ m * 2 ^ (k - 3) * x :=
        Nat.mul_le_mul_right x (Nat.mul_le_mul hm hpow)
      omega
    exact mem_umodFaults ⟨k, hk⟩ ⟨m, hfour⟩ ⟨x, hx⟩ hm htop hn h hmistaken

/-- What the routine returns, at the end of its last round. -/
theorem LastRound.fixup_eq_iff {n m k₀ k : ℕ} {a d excess : BitVec 32} {t₁ t₂ t₃ : Bool}
    (h : LastRound n m k a d excess t₁ t₂ t₃) (hn : n < 2 ^ 32) (hm : 0 < m)
    (hd : d.toNat = m * 2 ^ k) (hstop : k < 4 ∨ a = 0#32) (hrounds : Rounds n m k₀ k)
    (halign : Aligned n m k₀) :
    (fixup k a d t₁ t₂ t₃).toNat = n % m ↔ (n, m) ∉ umodFaults := by
  rw [mem_umodFaults_iff hn hm halign]
  have hk := lt_of_toNat_eq hm hd
  rcases Nat.lt_or_ge k 4 with hlast | hmore
  · have hnot : ¬ (m * 2 ^ (k₀ - 3) ∣ n ∧ Mistaken n m k₀) := by
      rintro ⟨hdvd, hmistaken⟩
      rcases hrounds with rfl | ⟨hle, hnot⟩
      · rcases hmistaken with ⟨rfl, -⟩ | ⟨rfl, -⟩ <;> omega
      · exact hnot hdvd
    exact iff_of_true (h.fixup_of_lt hlast) hnot
  · obtain rfl : a = 0#32 := hstop.resolve_left (by omega)
    obtain ⟨hdvd, hiff⟩ := h.fixup_of_zero hmore hk hd
    rw [hiff]
    rcases hrounds with rfl | ⟨hle, hnot⟩
    · simp [hdvd]
    · refine iff_of_true ?_ fun h => hnot h.1
      have hlt := lt_of_mul_lt hm halign.lt
      rintro (⟨rfl, -⟩ | ⟨rfl, -⟩) <;> omega

theorem umodFaults_le : ∀ p ∈ umodFaults, p.2 ≤ p.1 := by
  decide +kernel

/-- What `__umodsi3` leaves. -/
def UmodResult (s s' : Cpu) : Prop :=
  (s'.reg .r0 = s.reg .r0 % s.reg .r1 ↔
    ((s.reg .r0).toNat, (s.reg .r1).toNat) ∉ umodFaults) ∧
  Returned [.r0, .r1, .r2, .r3, .ip] s s'

/-- `__umodsi3` behind its loop. -/
theorem umodResult_fixup {s : Cpu} {k k₀ : ℕ} {a d excess : BitVec 32} {t₁ t₂ t₃ : Bool}
    (hm : 0 < (s.reg .r1).toNat)
    (hlast : LastRound (s.reg .r0).toNat (s.reg .r1).toNat k a d excess t₁ t₂ t₃)
    (hd : d.toNat = (s.reg .r1).toNat * 2 ^ k) (hstop : k < 4 ∨ a = 0#32)
    (hrounds : Rounds (s.reg .r0).toNat (s.reg .r1).toNat k₀ k)
    (halign : Aligned (s.reg .r0).toNat (s.reg .r1).toNat k₀) (x d' o b : BitVec 32)
    (n z c v : Bool) :
    UmodResult s ⟨Function.update (udivRegs.file (Function.update s.reg .ip x)
      (fixup k a d t₁ t₂ t₃) d' o b) .pc (s.reg .lr), n, z, c, v, s.mem⟩ := by
  refine ⟨?_, rfl, ?_, rfl⟩
  · rw [← hlast.fixup_eq_iff (s.reg .r0).isLt hm hd hstop hrounds halign, ← BitVec.toNat_umod]
    exact BitVec.toNat_inj.symm
  · intro r hpc hr
    simp only [List.mem_cons, List.not_mem_nil, or_false, not_or] at hr
    simp [udivRegs, DivRegs.file, hpc, hr]

/-- `__umodsi3`, for a divisor that is not 0. -/
theorem umodsi3_ends (div0 : Code) (ret : BitVec 32) {s : Cpu} (hs : s.reg .r1 ≠ 0#32) :
    cpu.Ends (umodsi3 div0 ret) (umodsi3 div0 ret) s (UmodResult s) := by
  have hpos : 0 < (s.reg .r1).toNat := Nat.pos_of_ne_zero fun h => hs (BitVec.eq_of_toNat_eq h)
  have hfile : Function.update s.reg .r3 1#32 =
      udivRegs.file (Function.update s.reg .ip (s.reg .ip)) (s.reg .r0) (s.reg .r1) (s.reg .r2)
        (1#32 <<< 0) := by
    funext r
    cases r <;> rfl
  change cpu.Ends _ (_ :: _ :: _ :: _ :: _ :: _ :: Asm.goto .loop1 (umodsi3 div0 ret)) s _
  simp only [Asm.ends_op, Asm.ends_branch, Asm.ends_ret, Asm.ends_label, cpu_holds, holds_al,
    holds_eq, holds_cc, if_true, cpu_exec, exec_cmp, exec_mov, value_imm, value_reg, Cpu.set,
    BitVec.ofNat_eq_ofNat, hs, decide_false, Bool.false_eq_true, if_false, Bool.not_eq_true']
  split
  · next hlt =>
    -- a dividend below the divisor
    have hlt : (s.reg .r0).toNat < (s.reg .r1).toNat :=
      BitVec.lt_def.1 (BitVec.not_le.1 (of_decide_eq_false hlt))
    refine ⟨iff_of_true ?_ fun hmem => ?_, rfl, ?_, rfl⟩
    · refine BitVec.eq_of_toNat_eq ?_
      exact ((BitVec.toNat_umod).trans (Nat.mod_eq_of_lt hlt)).symm
    · have hle := umodFaults_le _ hmem
      omega
    · intro r hpc hr
      simp only [List.mem_cons, List.not_mem_nil, or_false, not_or] at hr
      simp [hpc, hr]
  · rw [hfile]
    refine ends_align udivRegs hpos 0x10000000#32 (show 0 < 4 by omega) (by decide)
      (· <<< 4) (1#32 <<< ·) (fun _ => rfl) (fun k => (BitVec.shiftLeft_add _ _ _).symm)
      (4 ∣ ·) (fun k _ _ _ _ hk => Nat.dvd_add hk dvd_rfl) rfl ?_ (by simp) (dvd_zero 4) _ _ _ _
    intro k d hd hfour _ n z c v
    have hk := lt_of_toNat_eq hpos hd
    refine Asm.ends_fall rfl ?_
    refine ends_align udivRegs hpos 0x80000000#32 (show 0 < 1 by omega) (by decide)
      (· <<< 1) (1#32 <<< ·) (fun _ => rfl) (fun k => (BitVec.shiftLeft_add _ _ _).symm)
      (fun k => k ≤ 28 ∨ (s.reg .r1).toNat * 2 ^ (k - 1) < 2 ^ 31 ∧
        (s.reg .r1).toNat * 2 ^ (k - 1) < (s.reg .r0).toNat) ?_ rfl ?_ hd (.inl (by omega)) _ _ _ _
    · intro k d hd hlim hlt _
      rw [Nat.add_sub_cancel, ← hd]
      exact .inr ⟨BitVec.lt_def.1 hlim, BitVec.lt_def.1 hlt⟩
    intro k d hd hstart halign n z c v
    refine Asm.ends_fall rfl ?_
    refine ends_umodLoop rfl ?_ (lt_of_toNat_eq hpos hd) hd
      (Quot.start (lt_of_aligned hpos hd halign)) _ _ _ _
    intro k' a d' excess t₁ t₂ t₃ b hk' hd' hlast hstop hrounds n z c v
    refine ends_fixup hk' (Function.update_self ..) t₁ t₂ t₃ ?_ n z c v
    intro o b n z c v
    refine umodResult_fixup hpos hlast hd' hstop hrounds ⟨hd ▸ d.isLt, hstart, ?_⟩ _ _ _ _ n z c v
    rw [← hd]
    exact halign.imp BitVec.le_def.1 BitVec.le_def.1

end Ucore.Arm
