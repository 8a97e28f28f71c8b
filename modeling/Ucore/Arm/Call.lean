import Ucore.Arm.Div64
import Ucore.Arm.Smod
import Ucore.Arm.Umod

/-!
# Calling the division routines

What a caller may rely on (`Kept`), for all operands, and the routines that call other ones.  A
division by 0 calls `__div0`, which is a C function, so all that is known of it is that it obeys the
calling convention (`Compiled`), and the quotient is then 0.  `__aeabi_uidivmod` and
`__aeabi_idivmod` save the operands on the stack, divide, and find the remainder by multiplying.

* `Kept` — the routine returns to its caller, with the registers `r4` to `r11` and the stack pointer
  as they were, and the memory from the stack pointer up.  `Returned.kept` says that the routines
  without calls do.
* `exec_stmfd`, `exec_ldmfd` — saving registers on the stack and getting them back.  The stack below
  the saved words may be overwritten in between (`Words.congr`).
* `ends_div0` — the lines that call `__div0`.
* `divmod_ends` — the routines for quotient and remainder, from what the division does.

The main results are about all operands, a divisor of 0 included:

* `aeabiUidivmod_exact`, `aeabiIdivmod_exact` — the quotient and the remainder;
* `umodsi3_exact` — the unsigned remainder, and exactly when it is wrong;
* `modsi3_exact` — the signed remainder;
* `doDiv64_exact` — 64 bits by 32, which returns the same as the division of the x86 version.
-/

set_option autoImplicit false

namespace Ucore.Arm

/-- The calling convention, for a caller whose part of the stack is above `sp`. -/
structure Kept (s s' : Cpu) : Prop where
  pc : s'.reg .pc = s.reg .lr
  saved : ∀ r ∈ [Reg.r4, .r5, .r6, .r7, .r8, .r9, .r10, .r11, .sp], s'.reg r = s.reg r
  mem : ∀ addr, s.reg .sp ≤ addr → s'.mem addr = s.mem addr

/-- A function that was compiled from C. -/
def Compiled (f : Code) : Prop := ∀ s, cpu.Ends f f s (Kept s)

theorem Returned.kept {rs : List Reg} {s s' : Cpu} (h : Returned rs s s')
    (hrs : ∀ r ∈ [Reg.r4, .r5, .r6, .r7, .r8, .r9, .r10, .r11, .sp], r ≠ .pc ∧ r ∉ rs) :
    Kept s s' :=
  ⟨h.pc, fun r hr => h.reg r (hrs r hr).1 (hrs r hr).2, fun _ _ => congrFun h.mem _⟩

section

open Line Instr Operand

variable {code : Code} {div0 : Code} {s : Cpu}

/-- A routine that pushed `lr` leaves by popping it. -/
theorem kept_pop {n : BitVec 32} {s' : Cpu} (hn : 0 < n.toNat) (hroom : n ≤ s.reg .sp)
    (hsp : s'.reg .sp = s.reg .sp - n)
    (hsaved : ∀ r ∈ [Reg.r4, .r5, .r6, .r7, .r8, .r9, .r10, .r11], s'.reg r = s.reg r)
    (hmem : ∀ addr, s.reg .sp - n ≤ addr →
      s'.mem addr = Function.update s.mem (s.reg .sp - n) (s.reg .lr) addr) :
    Kept s ((pop .pc n).exec s') := by
  have hsub : (s.reg .sp - n).toNat = (s.reg .sp).toNat - n.toNat := BitVec.toNat_sub_of_le hroom
  have hroom := BitVec.le_def.1 hroom
  refine ⟨?_, ?_, ?_⟩
  · change s'.mem (s'.reg .sp) = s.reg .lr
    rw [hsp, hmem _ (BitVec.le_refl _), Function.update_self]
  · intro r hr
    by_cases hrsp : r = .sp
    · subst hrsp
      change s'.reg .sp + n = s.reg .sp
      rw [hsp, BitVec.sub_add_cancel]
    · have hpc : r ≠ .pc := by
        rintro rfl
        exact absurd hr (by decide)
      have hkeep := hsaved r (by simpa [hrsp] using hr)
      simpa [Instr.exec, Cpu.bump, Cpu.set, hrsp, hpc] using hkeep
  · intro addr haddr
    have haddr := BitVec.le_def.1 haddr
    change s'.mem addr = s.mem addr
    rw [hmem addr (BitVec.le_def.2 (by omega)), Function.update_of_ne]
    rintro rfl
    omega

/-- A division by 0: `__div0` is called, and the result is 0. -/
theorem ends_div0 (hdiv0 : Compiled div0) {ret : BitVec 32} (hsp : 4#32 ≤ s.reg .sp)
    {leave : Instr} (hleave : ∀ s, leave.exec s = (pop .pc 4).exec s)
    (hl : Asm.goto .div0 code = [op .al (push .lr 4), call (bl ret) div0,
      op .al (mov false .r0 (imm 0)), Line.ret .al leave]) (n z c v : Bool) :
    cpu.Ends code (Asm.goto .div0 code) ⟨s.reg, n, z, c, v, s.mem⟩ fun s' =>
      s'.reg .r0 = 0#32 ∧ Kept s s' := by
  rw [hl]
  refine ends_al ((Asm.ends_call _ _).2 ((hdiv0 _).mono fun s' hs' => ends_al (ends_ret_al ?_)))
  rw [hleave]
  have hsp' : s'.reg .sp = s.reg .sp + -4#32 := hs'.saved .sp (by decide)
  have hmem : ∀ addr, s.reg .sp + -4#32 ≤ addr →
      s'.mem addr = Function.update s.mem (s.reg .sp - 4#32) (s.reg .lr) addr := hs'.mem
  rw [← BitVec.sub_eq_add_neg] at hsp' hmem
  refine ⟨rfl, kept_pop (by decide) hsp hsp' ?_ hmem⟩
  intro r hr
  have hne : r ≠ .r0 ∧ r ≠ .lr ∧ r ≠ .sp := by
    refine ⟨?_, ?_, ?_⟩ <;> rintro rfl <;> exact absurd hr (by decide)
  have hkeep := hs'.saved r (List.mem_append_left [Reg.sp] hr)
  simpa [Instr.exec, Cpu.bump, Cpu.set, Cpu.store, hne] using hkeep

/-! ## Saved registers -/

/-- The words from `addr` on. -/
def Words (mem : BitVec 32 → BitVec 32) : BitVec 32 → List (BitVec 32) → Prop
  | _, [] => True
  | addr, w :: ws => mem addr = w ∧ Words mem (addr + 4#32) ws

/-- Words do not depend on what is below them. -/
theorem Words.congr {mem mem' : BitVec 32 → BitVec 32} {addr : BitVec 32} {ws : List (BitVec 32)}
    (h : Words mem addr ws) (hlen : addr.toNat + 4 * ws.length < 2 ^ 32)
    (hmem : ∀ a, addr ≤ a → mem' a = mem a) : Words mem' addr ws := by
  induction ws generalizing addr with
  | nil => trivial
  | cons w ws ih =>
    rw [List.length_cons] at hlen
    have hnext : (addr + 4#32).toNat = addr.toNat + 4 := by
      rw [BitVec.toNat_add, BitVec.toNat_ofNat]
      omega
    refine ⟨(hmem addr (BitVec.le_refl _)).trans h.1, ih h.2 (by omega) fun a ha => hmem a ?_⟩
    have ha := BitVec.le_def.1 ha
    exact BitVec.le_def.2 (by omega)

/-- A word is pushed. -/
theorem push_spec (v : BitVec 32) {s' : Cpu}
    (hs' : s' = (s.store (s.reg .sp - 4#32) v).bump .sp (-4#32)) :
    s'.reg .sp = s.reg .sp - 4#32 ∧ (∀ r, r ≠ .sp → s'.reg r = s.reg r) ∧
      s'.mem = Function.update s.mem (s.reg .sp - 4#32) v := by
  subst hs'
  exact ⟨(BitVec.sub_eq_add_neg _ _).symm, fun r hr => Function.update_of_ne hr _ _, rfl⟩

/-- **Saving registers.** -/
theorem exec_stmfd (rs : List Reg) {s' : Cpu} (hs' : s' = (stmfd rs).exec s)
    (hsp : 4 * rs.length ≤ (s.reg .sp).toNat) :
    (s'.reg .sp).toNat = (s.reg .sp).toNat - 4 * rs.length ∧
      (∀ r, r ≠ .sp → s'.reg r = s.reg r) ∧ Words s'.mem (s'.reg .sp) (rs.map s.reg) ∧
      ∀ addr, s.reg .sp ≤ addr → s'.mem addr = s.mem addr := by
  induction rs generalizing s' with
  | nil =>
    subst hs'
    exact ⟨rfl, fun _ _ => rfl, trivial, fun _ _ => rfl⟩
  | cons r rs ih =>
    rw [List.length_cons] at hsp
    obtain ⟨ihsp, ihreg, ihwords, ihmem⟩ := ih rfl (by omega)
    obtain ⟨hsp', hreg, hmem⟩ := push_spec (s := (stmfd rs).exec s) (s.reg r) hs'
    have hlt := (s.reg .sp).isLt
    have hsub : (s'.reg .sp).toNat = (((stmfd rs).exec s).reg .sp).toNat - 4 := by
      rw [hsp']
      exact BitVec.toNat_sub_of_le (BitVec.le_def.2 (by rw [BitVec.toNat_ofNat]; omega))
    have hkeep : ∀ addr, ((stmfd rs).exec s).reg .sp ≤ addr →
        s'.mem addr = ((stmfd rs).exec s).mem addr := by
      intro addr haddr
      rw [hmem, ← hsp', Function.update_of_ne]
      rintro rfl
      have haddr := BitVec.le_def.1 haddr
      omega
    refine ⟨?_, fun r hr => (hreg r hr).trans (ihreg r hr), ⟨?_, ?_⟩, ?_⟩
    · rw [hsub, ihsp, List.length_cons]
      omega
    · rw [hmem, hsp', Function.update_self]
    · rw [hsp', BitVec.sub_add_cancel]
      exact ihwords.congr (by rw [ihsp, List.length_map]; omega) hkeep
    · intro addr haddr
      have hle := BitVec.le_def.1 haddr
      rw [hkeep addr (BitVec.le_def.2 (by omega)), ihmem addr haddr]

/-- **Restoring registers.** -/
theorem exec_ldmfd (rs : List Reg) {ws : List (BitVec 32)} {s s' : Cpu}
    (hs' : s' = (ldmfd rs).exec s) (hws : Words s.mem (s.reg .sp) ws)
    (hlen : rs.length = ws.length) (hrs : (Reg.sp :: rs).Nodup) :
    s'.reg .sp = s.reg .sp + BitVec.ofNat 32 (4 * rs.length) ∧ rs.map s'.reg = ws ∧
      (∀ r, r ∉ Reg.sp :: rs → s'.reg r = s.reg r) ∧ s'.mem = s.mem := by
  induction rs generalizing s ws with
  | nil =>
    subst hs'
    cases ws with
    | nil => exact ⟨(BitVec.add_zero _).symm, rfl, fun _ _ => rfl, rfl⟩
    | cons w ws => cases hlen
  | cons r rs ih =>
    cases ws with
    | nil => cases hlen
    | cons w ws =>
      obtain ⟨hw, hws⟩ := hws
      simp only [List.nodup_cons, List.mem_cons, not_or] at hrs
      obtain ⟨⟨hspr, hsprs⟩, hr, hnodup⟩ := hrs
      have hsp₁ : ((s.set r (s.mem (s.reg .sp))).bump .sp 4#32).reg .sp = s.reg .sp + 4#32 := by
        simp [Cpu.bump, Cpu.set, hspr]
      have hreg₁ : ∀ q, q ≠ .sp → q ≠ r →
          ((s.set r (s.mem (s.reg .sp))).bump .sp 4#32).reg q = s.reg q := by
        intro q hsp hq
        simp [Cpu.bump, Cpu.set, hsp, hq]
      have hr₁ : ((s.set r (s.mem (s.reg .sp))).bump .sp 4#32).reg r = w := by
        simp [Cpu.bump, Cpu.set, Ne.symm hspr, hw]
      obtain ⟨ihsp, ihws, ihreg, ihmem⟩ := ih (s := (s.set r (s.mem (s.reg .sp))).bump .sp 4#32)
        hs' (by rw [hsp₁]; exact hws) (by simpa using hlen) (List.nodup_cons.2 ⟨hsprs, hnodup⟩)
      refine ⟨?_, ?_, ?_, ihmem⟩
      · rw [ihsp, hsp₁, List.length_cons, BitVec.add_assoc]
        congr 1
        exact BitVec.eq_of_toNat_eq (by simp; omega)
      · rw [List.map_cons, ihws, ihreg r (by simp [Ne.symm hspr, hr]), hr₁]
      · intro q hq
        simp only [List.mem_cons, not_or] at hq
        rw [ihreg q (by simp [hq]), hreg₁ q hq.1 hq.2.1]

/-- The routines that also find the remainder. -/
theorem divmod_ends {div : Code} {f : BitVec 32 → BitVec 32 → BitVec 32} (ret : BitVec 32)
    (hdiv : ∀ s : Cpu, 4#32 ≤ s.reg .sp → cpu.Ends div div s fun s' =>
      s'.reg .r0 = f (s.reg .r0) (s.reg .r1) ∧ Kept s s')
    (hsp : 20#32 ≤ s.reg .sp) :
    cpu.Ends (divmod ret div) (divmod ret div) s fun s' =>
      s'.reg .r0 = f (s.reg .r0) (s.reg .r1) ∧
        s'.reg .r1 = s.reg .r0 - f (s.reg .r0) (s.reg .r1) * s.reg .r1 ∧ Kept s s' := by
  have hroom : 20 ≤ (s.reg .sp).toNat := BitVec.le_def.1 hsp
  change cpu.Ends _ (_ :: _ :: _ :: _ :: _ :: _ :: []) s _
  refine ends_al ((Asm.ends_call _ _).2 ?_)
  obtain ⟨hsp₁, hreg₁, hwords₁, hmem₁⟩ :=
    exec_stmfd (s := s) [.r0, .r1, .ip, .lr] rfl (by simp only [List.length]; omega)
  generalize (stmfd [.r0, .r1, .ip, .lr]).exec s = s₁ at hsp₁ hreg₁ hwords₁ hmem₁
  have hfour : 4 ≤ (s₁.reg .sp).toNat := by
    rw [hsp₁]
    simp only [List.length]
    omega
  have hsp_lr : (s₁.set .lr ret).reg .sp = s₁.reg .sp := by simp [Cpu.set]
  have hreg_lr : ∀ r, r ≠ .sp → r ≠ .lr → (s₁.set .lr ret).reg r = s.reg r := by
    intro r hsp hlr
    rw [← hreg₁ r hsp]
    exact Function.update_of_ne hlr _ _
  refine (hdiv (s₁.set .lr ret) ?_).mono ?_
  · rw [hsp_lr]
    exact BitVec.le_def.2 hfour
  rintro s₂ ⟨hr0, hkept⟩
  have hsp₂ : s₂.reg .sp = s₁.reg .sp := (hkept.saved .sp (by decide)).trans hsp_lr
  have hwords₂ : Words s₂.mem (s₂.reg .sp) [s.reg .r0, s.reg .r1, s.reg .ip, s.reg .lr] := by
    rw [hsp₂]
    refine hwords₁.congr ?_ fun addr haddr => hkept.mem addr (hsp_lr.symm ▸ haddr)
    have hlt := (s.reg .sp).isLt
    rw [hsp₁]
    simp only [List.length, List.map]
    omega
  refine ends_al ?_
  obtain ⟨hsp₃, hregs₃, hreg₃, hmem₃⟩ :=
    exec_ldmfd (s := s₂) [.r1, .r2, .ip, .lr] rfl hwords₂ rfl (by decide)
  generalize (ldmfd [.r1, .r2, .ip, .lr]).exec s₂ = s₃ at hsp₃ hregs₃ hreg₃ hmem₃
  simp only [List.map_cons, List.map_nil, List.cons.injEq, and_true] at hregs₃
  obtain ⟨hr1, hr2, -, hlr⟩ := hregs₃
  have hquot : s₃.reg .r0 = f (s.reg .r0) (s.reg .r1) := by
    rw [hreg₃ .r0 (by decide), hr0, hreg_lr .r0 (by decide) (by decide),
      hreg_lr .r1 (by decide) (by decide)]
  refine ends_al (ends_al (ends_ret_al ⟨?_, ?_, ?_, ?_, ?_⟩))
  · simpa [Instr.exec, Cpu.set] using hquot
  · simp [Instr.exec, Op.apply, addWithCarry_not, Cpu.set, hr1, hr2, hquot]
  · simpa [Instr.exec, Cpu.set] using hlr
  · intro r hr
    have hscratch : ∀ q ∈ [Reg.r1, .r2, .r3, .ip, .lr, .pc], r ≠ q := by
      revert r
      decide
    have hlast : ∀ v w x, (((s₃.set .r3 v).set .r1 w).set .pc x).reg r = s₃.reg r := by
      intro v w x
      simp only [Cpu.set]
      rw [Function.update_of_ne (hscratch .pc (by decide)),
        Function.update_of_ne (hscratch .r1 (by decide)),
        Function.update_of_ne (hscratch .r3 (by decide))]
    refine (hlast _ _ _).trans ?_
    by_cases hrsp : r = .sp
    · subst hrsp
      refine BitVec.eq_of_toNat_eq ?_
      have hlt := (s.reg .sp).isLt
      rw [hsp₃, hsp₂, BitVec.toNat_add, hsp₁, BitVec.toNat_ofNat]
      simp only [List.length]
      omega
    · have hr₃ : r ∉ Reg.sp :: [.r1, .r2, .ip, .lr] := by
        simp [hrsp, hscratch]
      calc s₃.reg r = s₂.reg r := hreg₃ r hr₃
        _ = (s₁.set .lr ret).reg r := hkept.saved r hr
        _ = s.reg r := hreg_lr r hrsp (hscratch .lr (by decide))
  · intro addr haddr
    have hle := BitVec.le_def.1 haddr
    have hbelow : (s₁.set .lr ret).reg .sp ≤ addr := by
      rw [hsp_lr, BitVec.le_def, hsp₁]
      omega
    calc s₃.mem addr = s₂.mem addr := congrFun hmem₃ addr
      _ = s₁.mem addr := hkept.mem addr hbelow
      _ = s.mem addr := hmem₁ addr haddr

end

/-! ## Quotients and remainders -/

theorem sub_udiv_mul (n d : BitVec 32) : n - n / d * d = n % d := by
  have hle : n.toNat / d.toNat * d.toNat ≤ n.toNat := Nat.div_mul_le_self _ _
  have hmul : (n / d * d).toNat = n.toNat / d.toNat * d.toNat := by
    rw [BitVec.toNat_mul, BitVec.toNat_udiv, Nat.mod_eq_of_lt (Nat.lt_of_le_of_lt hle n.isLt)]
  refine BitVec.eq_of_toNat_eq ?_
  rw [BitVec.toNat_sub_of_le (BitVec.le_def.2 (hmul ▸ hle)), hmul, BitVec.toNat_umod]
  have hmod := Nat.div_add_mod' n.toNat d.toNat
  omega

theorem sub_sdiv_mul (n d : BitVec 32) : n - n.sdiv d * d = n.srem d := by
  have hmod : n.toInt - n.toInt.tdiv d.toInt * d.toInt = n.toInt.tmod d.toInt := by
    have h := Int.tdiv_mul_add_tmod n.toInt d.toInt
    omega
  refine BitVec.eq_of_toInt_eq ?_
  rw [BitVec.toInt_srem, BitVec.toInt_sub, BitVec.toInt_mul, BitVec.toInt_sdiv, Int.bmod_mul_bmod,
    Int.sub_bmod_bmod, hmod, ← BitVec.toInt_srem, BitVec.toInt_bmod_cancel]

section

open Line Instr Operand

variable {div0 : Code} (hdiv0 : Compiled div0) (ret ret' : BitVec 32) {s : Cpu}

include hdiv0

/-- A routine that compares its divisor with 0 first. -/
theorem ends_zero {code text : Code} (leave : Instr) (hsp : 4#32 ≤ s.reg .sp)
    (hs : s.reg .r1 = 0#32)
    (hcode : code = op .al (cmp .r1 (imm 0)) :: branch .eq .div0 :: text)
    (hleave : ∀ s, leave.exec s = (pop .pc 4).exec s)
    (hl : Asm.goto .div0 code = [op .al (push .lr 4), call (bl ret) div0,
      op .al (mov false .r0 (imm 0)), Line.ret .al leave]) :
    cpu.Ends code code s fun s' => s'.reg .r0 = 0#32 ∧ Kept s s' := by
  suffices h : cpu.Ends code (op .al (cmp .r1 (imm 0)) :: branch .eq .div0 :: text) s fun s' =>
      s'.reg .r0 = 0#32 ∧ Kept s s' by rwa [← hcode] at h
  refine ends_al ?_
  rw [exec_cmp, value_imm]
  exact ends_branch_pos (decide_eq_true hs) (ends_div0 hdiv0 hsp hleave hl _ _ _ _)

/-- `__udivsi3`, for all operands. -/
theorem udivsi3_all (hsp : 4#32 ≤ s.reg .sp) :
    cpu.Ends (udivsi3 div0 ret) (udivsi3 div0 ret) s fun s' =>
      s'.reg .r0 = s.reg .r0 / s.reg .r1 ∧ Kept s s' := by
  by_cases hs : s.reg .r1 = 0#32
  · rw [hs, BitVec.udiv_zero]
    exact ends_zero hdiv0 ret (ldmfd [.pc]) hsp hs rfl (fun _ => rfl) rfl
  · exact (udivsi3_ends div0 ret hs).mono fun s' h => ⟨h.1, h.2.kept (by decide)⟩

/-- The divisor 0 of `__divsi3`. -/
theorem divsi3_zero (hsp : 4#32 ≤ s.reg .sp) (hs : s.reg .r1 = 0#32) :
    cpu.Ends (divsi3 div0 ret) (divsi3 div0 ret) s fun s' => s'.reg .r0 = 0#32 ∧ Kept s s' := by
  change cpu.Ends _ (_ :: _ :: _ :: _) s _
  refine ends_al (ends_al ?_)
  rw [exec_cmp, value_imm, exec_eor, value_reg]
  refine ends_branch_pos (decide_eq_true hs) ?_
  have hsp' : 4#32 ≤ (s.set .ip (s.reg .r0 ^^^ s.reg .r1)).reg .sp := by simpa [Cpu.set] using hsp
  refine (ends_div0 hdiv0 (s := s.set .ip (s.reg .r0 ^^^ s.reg .r1)) hsp' (fun _ => rfl) rfl
    _ _ _ _).mono ?_
  rintro s' ⟨hr0, hkept⟩
  refine ⟨hr0, hkept.pc, fun r hr => (hkept.saved r hr).trans (Function.update_of_ne ?_ _ _),
    fun addr haddr => hkept.mem addr (by simpa [Cpu.set] using haddr)⟩
  rintro rfl
  exact absurd hr (by decide)

/-- `__divsi3`, for all operands. -/
theorem divsi3_all (hsp : 4#32 ≤ s.reg .sp) :
    cpu.Ends (divsi3 div0 ret) (divsi3 div0 ret) s fun s' =>
      s'.reg .r0 = (s.reg .r0).sdiv (s.reg .r1) ∧ Kept s s' := by
  by_cases hs : s.reg .r1 = 0#32
  · rw [hs, BitVec.sdiv_zero]
    exact divsi3_zero hdiv0 ret hsp hs
  · exact (divsi3_ends div0 ret hs).mono fun s' h => ⟨h.1, h.2.kept (by decide)⟩

end

/-! ## What the routines return -/

section

open Line Instr Operand

/-- `__div0`, which is empty. -/
def emptyDiv0 : Code := [Line.ret .al (mov false .pc (reg .lr))]

theorem compiled_emptyDiv0 : Compiled emptyDiv0 := by
  intro s
  refine ends_ret_al ⟨rfl, fun r hr => Function.update_of_ne ?_ _ _, fun _ _ => rfl⟩
  rintro rfl
  exact absurd hr (by decide)

/-- A call, with a stack below `0x8000`. -/
def called (r0 r1 r4 : BitVec 32) : Cpu where
  reg
    | .r0 => r0
    | .r1 => r1
    | .r4 => r4
    | .sp => 0x8000
    | .lr => 0x1000
    | _ => 0
  n := false
  z := false
  c := false
  v := false
  mem := fun _ => 0

/-- **Unsigned division**, with the quotient 0 and the remainder `r0` for the divisor 0. -/
theorem aeabiUidivmod_exact (div0 : Code) (ret ret' : BitVec 32) (s : Cpu) (hdiv0 : Compiled div0)
    (hsp : 20#32 ≤ s.reg .sp) :
    cpu.Ends (aeabiUidivmod div0 ret ret') (aeabiUidivmod div0 ret ret') s fun s' =>
      (s'.reg .r0).toNat = (s.reg .r0).toNat / (s.reg .r1).toNat ∧
        (s'.reg .r1).toNat = (s.reg .r0).toNat % (s.reg .r1).toNat ∧ Kept s s' := by
  refine (divmod_ends ret' (fun s => udivsi3_all hdiv0 ret) hsp).mono ?_
  rintro s' ⟨hquot, hrem, hkept⟩
  refine ⟨?_, ?_, hkept⟩
  · rw [hquot, BitVec.toNat_udiv]
  · rw [hrem, sub_udiv_mul, BitVec.toNat_umod]

theorem aeabiUidivmod_exact_seven :
    cpu.Ends (aeabiUidivmod emptyDiv0 0x2000 0x2004) (aeabiUidivmod emptyDiv0 0x2000 0x2004)
      (called 7 2 0) fun s' => (s'.reg .r0).toNat = 3 ∧ (s'.reg .r1).toNat = 1 :=
  (aeabiUidivmod_exact emptyDiv0 0x2000 0x2004 (called 7 2 0) compiled_emptyDiv0
    (by decide)).mono fun _ h => ⟨h.1, h.2.1⟩

/-- **Signed division**.  The quotient is rounded toward 0, and the one quotient that is not a
word, that of the least number and `-1`, is the least number again. -/
theorem aeabiIdivmod_exact (div0 : Code) (ret ret' : BitVec 32) (s : Cpu) (hdiv0 : Compiled div0)
    (hsp : 20#32 ≤ s.reg .sp) :
    cpu.Ends (aeabiIdivmod div0 ret ret') (aeabiIdivmod div0 ret ret') s fun s' =>
      (s'.reg .r0).toInt = ((s.reg .r0).toInt.tdiv (s.reg .r1).toInt).bmod (2 ^ 32) ∧
        (s'.reg .r1).toInt = (s.reg .r0).toInt.tmod (s.reg .r1).toInt ∧ Kept s s' := by
  refine (divmod_ends ret' (fun s => divsi3_all hdiv0 ret) hsp).mono ?_
  rintro s' ⟨hquot, hrem, hkept⟩
  refine ⟨?_, ?_, hkept⟩
  · rw [hquot, BitVec.toInt_sdiv]
  · rw [hrem, sub_sdiv_mul, BitVec.toInt_srem]

theorem aeabiIdivmod_exact_negative :
    cpu.Ends (aeabiIdivmod emptyDiv0 0x2000 0x2004) (aeabiIdivmod emptyDiv0 0x2000 0x2004)
      (called (-7) 2 0) fun s' => (s'.reg .r0).toInt = -3 ∧ (s'.reg .r1).toInt = -1 :=
  (aeabiIdivmod_exact emptyDiv0 0x2000 0x2004 (called (-7) 2 0) compiled_emptyDiv0
    (by decide)).mono fun _ h => ⟨h.1, h.2.1⟩

/-- **The unsigned remainder**, which is right but for 22 pairs of operands.  For the divisor 0 it
is 0. -/
theorem umodsi3_exact (div0 : Code) (ret : BitVec 32) (s : Cpu) (hdiv0 : Compiled div0)
    (hsp : 4#32 ≤ s.reg .sp) :
    cpu.Ends (umodsi3 div0 ret) (umodsi3 div0 ret) s fun s' =>
      (s.reg .r1 = 0#32 → s'.reg .r0 = 0#32) ∧
        (s.reg .r1 ≠ 0#32 → (s'.reg .r0 = s.reg .r0 % s.reg .r1 ↔
          ((s.reg .r0).toNat, (s.reg .r1).toNat) ∉ umodFaults)) ∧ Kept s s' := by
  by_cases hs : s.reg .r1 = 0#32
  · refine (ends_zero hdiv0 ret (ldmfd [.pc]) hsp hs rfl (fun _ => rfl) rfl).mono fun s' h => ?_
    exact ⟨fun _ => h.1, fun hne => absurd hs hne, h.2⟩
  · refine (umodsi3_ends div0 ret hs).mono fun s' h => ?_
    exact ⟨fun hzero => absurd hzero hs, fun _ => h.1, h.2.kept (by decide)⟩

theorem umodsi3_exact_fault :
    cpu.Ends (umodsi3 emptyDiv0 0x2000) (umodsi3 emptyDiv0 0x2000) (called 0x50000000 1 0)
      fun s' => s'.reg .r0 ≠ 0#32 :=
  (umodsi3_exact emptyDiv0 0x2000 (called 0x50000000 1 0) compiled_emptyDiv0 (by decide)).mono
    fun _ h hzero => (h.2.1 (by decide)).1 hzero (by decide)

/-- **The signed remainder**, with the sign of the dividend.  For the divisor 0 it is 0. -/
theorem modsi3_exact (div0 : Code) (ret : BitVec 32) (s : Cpu) (hdiv0 : Compiled div0)
    (hsp : 4#32 ≤ s.reg .sp) :
    cpu.Ends (modsi3 div0 ret) (modsi3 div0 ret) s fun s' =>
      (s'.reg .r0).toInt = (if s.reg .r1 = 0#32 then 0 else
        (s.reg .r0).toInt.tmod (s.reg .r1).toInt) ∧ Kept s s' := by
  by_cases hs : s.reg .r1 = 0#32
  · refine (ends_zero hdiv0 ret (pop .pc 4) hsp hs rfl (fun _ => rfl) rfl).mono fun s' h => ?_
    rw [if_pos hs, h.1]
    exact ⟨rfl, h.2⟩
  · refine (modsi3_ends div0 ret hs).mono fun s' h => ?_
    rw [if_neg hs, h.1, BitVec.toInt_srem]
    exact ⟨rfl, h.2.kept (by decide)⟩

theorem modsi3_exact_negative :
    cpu.Ends (modsi3 emptyDiv0 0x2000) (modsi3 emptyDiv0 0x2000) (called (-7) 2 0)
      fun s' => (s'.reg .r0).toInt = -1 :=
  (modsi3_exact emptyDiv0 0x2000 (called (-7) 2 0) compiled_emptyDiv0 (by decide)).mono
    fun _ h => h.1

/-- The divisor 0 of `__do_div64`. -/
theorem doDiv64_zero {s : Cpu} (hsp : 8#32 ≤ s.reg .sp) (hs : s.reg .r4 = 0#32) :
    cpu.Ends doDiv64 doDiv64 s fun s' =>
      s'.reg .r2 = 0#32 ∧ s'.reg .r3 = 0#32 ∧ s'.reg .r1 = 0#32 ∧ Kept s s' := by
  change cpu.Ends _ (_ :: _ :: _) s _
  refine ends_al ?_
  rw [exec_subs, value_imm]
  refine ends_branch_pos (by simp [Cpu.set, hs]) ?_
  change cpu.Ends _ (_ :: _ :: _ :: _ :: _ :: _ :: _ :: _ :: _ :: []) _ _
  have hne : decide (s.reg .r4 = BitVec.ofNat 32 1) = false := by simp [hs]
  refine ends_op_neg hne (ends_op_neg hne (ends_op_neg hne (ends_ret_neg hne ?_)))
  refine ends_al (ends_al (ends_al (ends_al (ends_ret_al ⟨rfl, rfl, rfl, ?_⟩))))
  refine kept_pop (by decide) hsp (BitVec.sub_eq_add_neg _ _).symm ?_ fun _ _ => rfl
  intro r hr
  have hne : ∀ q ∈ [Reg.r1, .r2, .r3, .ip, .sp], r ≠ q := by
    revert r
    decide
  simp [Instr.exec, Cpu.bump, Cpu.set, Cpu.store, hne]

/-- **Both ports divide alike**: `__do_div64` on the dividend `r1:r0` does what `arch_do_div` does
with the instruction `divl`.  Only for the base 0, which is a fault there, it returns 0. -/
theorem doDiv64_exact (s : Cpu) (hsp : 8#32 ≤ s.reg .sp) :
    cpu.Ends doDiv64 doDiv64 s fun s' =>
      (s.reg .r4 ≠ 0#32 →
        archDoDiv (s.reg .r1 ++ s.reg .r0) (s.reg .r4) = .ok (s'.reg .r3 ++ s'.reg .r2, s'.reg .r1)) ∧
      (s.reg .r4 = 0#32 →
        archDoDiv (s.reg .r1 ++ s.reg .r0) (s.reg .r4) = .error .assertion ∧
          s'.reg .r3 ++ s'.reg .r2 = 0#64 ∧ s'.reg .r1 = 0#32) ∧ Kept s s' := by
  by_cases hs : s.reg .r4 = 0#32
  · refine (doDiv64_zero hsp hs).mono ?_
    rintro s' ⟨hlow, hhigh, hrem, hkept⟩
    refine ⟨fun hne => absurd hs hne, fun _ => ⟨?_, ?_, hrem⟩, hkept⟩
    · simp [hs, archDoDiv, divl]
    · rw [hlow, hhigh]
      rfl
  · obtain ⟨q, r, hdiv, hq, hr⟩ := archDoDiv_eq (s.reg .r1 ++ s.reg .r0) hs
    refine (doDiv64_ends hs).mono fun s' h => ?_
    refine ⟨fun _ => ?_, fun hzero => absurd hzero hs, h.returned.kept (by decide)⟩
    have hquot : s'.reg .r3 ++ s'.reg .r2 = q := BitVec.eq_of_toNat_eq (by
      rw [toNat_words, hq, toNat_words, h.quotient])
    have hrem : s'.reg .r1 = r := BitVec.eq_of_toNat_eq (by
      rw [hr, toNat_words, h.remainder])
    rw [hdiv, hquot, hrem]

theorem doDiv64_exact_ten :
    cpu.Ends doDiv64 doDiv64 (called 7 1 10) fun s' =>
      archDoDiv (1#32 ++ 7#32) 10#32 = .ok (s'.reg .r3 ++ s'.reg .r2, s'.reg .r1) :=
  (doDiv64_exact (called 7 1 10) (by decide)).mono fun _ h => h.1 (by decide)

end

end Ucore.Arm
