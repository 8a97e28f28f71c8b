import Ucore.World.Coherent

/-!
# What a page fault grants

The processor reports a fault with an error code that says whether the entry was present and whether
the access was a write.  `World.fault_exact` says that `do_pgfault` never stops at an assertion for
such an error code, that it succeeds only if an area allows the access, and that the entry then has
exactly the permissions of the area.

* `Pte.Raises` is what the error code says about the entry.  The `switch` at the beginning of
  `do_pgfault` looks at the error code only, and `Pte.Raises.allowed` says that it lets exactly the
  accesses through which the area allows.
* `faultIn_refused` — an access that the area does not allow is refused.
* `Coherent.faultIn_ok` — and any other one returns.  The assertion about a present entry is ruled
  out by the error code, and those of `shmem_get_entry` in a shared area by coherence: the offset is
  below the length of the object, and the nodes do not overlap.
* `Coherent.access_ok` is the same for user accesses, where the error code is not an argument but
  comes from the entry.

The witness goes through the two ways of getting a frame that are not simply a new page: a page that
was copied on write, and one that comes from a shared memory object.
-/

set_option autoImplicit false

namespace Ucore

open Vm

/-- An access that the flags of an area allow. -/
def VmFlags.allows (flags : VmFlags) (write : Bool) : Bool :=
  if write then flags.write else flags.read || flags.exec

/-- **The error codes that the processor can report** for an access, given the entry.  The other
bits may be anything. -/
structure Pte.Raises (e : Pte) (write : Bool) (errorCode : ℕ) : Prop where
  bit0 : errorCode % 2 = 1 ↔ e.present = true
  bit1 : errorCode / 2 % 2 = 1 ↔ write = true
  violation : e.present = true → write = true ∧ e.perm.writable = false

/-- The `switch` of `do_pgfault` lets exactly the accesses through that the area allows. -/
theorem Pte.Raises.allowed {e : Pte} {write : Bool} {errorCode : ℕ} (h : e.Raises write errorCode)
    (flags : VmFlags) : faultAllowed flags errorCode = flags.allows write := by
  have hlt : errorCode % 4 < 4 := Nat.mod_lt _ (by decide)
  cases write with
  | false =>
    have hp : e.present = false := by
      cases hp : e.present with
      | false => rfl
      | true => cases (h.violation hp).1
    have h1 : ¬ errorCode % 2 = 1 := fun h1 => by
      rw [h.bit0, hp] at h1
      cases h1
    have h2 : ¬ errorCode / 2 % 2 = 1 := fun h2 => by cases h.bit1.1 h2
    have hcode : errorCode % 4 = 0 := by omega
    rw [faultAllowed, hcode]
    rfl
  | true =>
    have h2 := h.bit1.2 rfl
    have hcode : errorCode % 4 = 2 ∨ errorCode % 4 = 3 := by omega
    rcases hcode with hcode | hcode
    · rw [faultAllowed, hcode]
      rfl
    · rw [faultAllowed, hcode]
      rfl

/-- A fault in an area that does not allow the access is refused. -/
theorem faultIn_refused {a : Vma} {d errorCode addr : ℕ} {s : Vm}
    (h : faultAllowed a.vmFlags errorCode = false) :
    faultIn a d errorCode addr s = .ok (-eInval, s) := by
  simp only [faultIn, h, Bool.not_false, if_true]

namespace World

variable {w : World} {i : ℕ}

/-- **No assertion fires** in `do_pgfault`. -/
theorem Coherent.faultIn_ok (C : w.Coherent) (H : w.Inv) (hi : i ∈ w.mms) {a : Vma}
    (ha : a ∈ (w.mm i).areas) {errorCode addr : ℕ} {write : Bool} (hhas : a.Has addr)
    (hraise : (w.vm.lookup i addr).Raises write errorCode) :
    faultIn a i errorCode addr w.vm ≠ .error .assertion := by
  intro herr
  have hlook : w.vm.lookup i addr = w.vm.slots (userSlot i addr) := rfl
  have hallow : a.vmFlags.allows write = true := by
    rw [← hraise.allowed]
    by_contra hno
    rw [Bool.not_eq_true] at hno
    rw [faultIn_refused hno] at herr
    cases herr
  -- a fault on a present entry is a write to an area that may be written to
  have hwrite : (w.vm.slots (userSlot i addr)).present = true → a.vmFlags.write = true ∧
      errorCode / 2 % 2 = 1 ∧ (w.vm.slots (userSlot i addr)).perm.writable = false := by
    intro hpres
    obtain ⟨hw, hperm⟩ := hraise.violation hpres
    rw [hw] at hallow
    exact ⟨hallow, hraise.bit1.2 hw, hperm⟩
  cases hshare : a.vmFlags.share with
  | false =>
    rcases faultIn_spec H.good (H.areas_backed hi a ha) i errorCode addr
      with ⟨-, hstop⟩ | ⟨r, s', hok, -⟩
    · rcases hstop with hs | ⟨hpres, hstop⟩
      · rw [hshare] at hs
        cases hs
      · obtain ⟨h1, h2, h3⟩ := hwrite hpres
        exact hstop ⟨h2, h3, h1⟩
    · rw [hok] at herr
      cases herr
  | true =>
    cases hpres : (w.vm.slots (userSlot i addr)).present with
    | true =>
      -- a shared area that may be written to has no entries without `PTE_W`
      obtain ⟨h1, -, h3⟩ := hwrite hpres
      have h4 := ((C.area i hi a ha).perm addr hhas hpres).shared hshare h1
      rw [h3] at h4
      cases h4
    | false =>
      obtain ⟨o, -, hok, -⟩ := C.faultIn_shared H hi ha hshare hhas errorCode
      obtain ⟨r, hr⟩ := hok hpres
      rw [hr] at herr
      cases herr

/-- The error code of an access that the entry does not permit is one that the processor can
report. -/
theorem raises_of_not_permits {e : Pte} {write : Bool}
    (huser : e.present = true → e.perm.user = true)
    (h : e.permits write = false) : e.Raises write (e.errorCode write) := by
  refine ⟨?_, ?_, fun hpres => ?_⟩
  · rw [Pte.errorCode]
    split_ifs <;> simp_all
  · rw [Pte.errorCode]
    split_ifs <;> simp_all
  · rw [Pte.permits, hpres, huser hpres, Bool.true_and, Bool.true_and, Bool.or_eq_false_iff,
      Bool.not_eq_false'] at h
    exact h

/-- **A user access never stops at an assertion.** -/
theorem Coherent.access_ok (C : w.Coherent) (H : w.Inv) (hi : i ∈ w.mms) (addr : ℕ) (write : Bool) :
    ∃ ret w₁, w.access i addr write = .ok (ret, w₁) ∧ w₁.Inv ∧ i ∈ w₁.mms ∧
      (ret = 0 → (w₁.vm.lookup i addr).permits write = true) := by
  rcases H.access hi addr write with herr | ⟨ret, w₁, hrun, H₁, -, hi₁, -, hperm⟩
  · exfalso
    simp only [World.access, getMm_mem hi, Res.ok_bind, H.pgdir i hi] at herr
    by_cases hno : (w.vm.lookup i addr).permits write = true
    · rw [if_pos hno] at herr
      cases herr
    · rw [if_neg hno] at herr
      rw [Bool.not_eq_true] at hno
      have hraise := raises_of_not_permits (fun hpres => by
        obtain ⟨a, ha, hhas⟩ := H.covered i hi addr hpres
        exact ((C.area i hi a ha).perm addr hhas hpres).user) hno
      rcases doPgfault_spec (H.mm i hi) H.good (H.areas_backed hi)
          ((w.vm.lookup i addr).errorCode write) addr with
        ⟨mm, -, -, -, -, hrun⟩ | ⟨a, ha, hhas, ⟨-, hin, -⟩ | ⟨ret, mm, vm, -, -, -, -, hrun, -⟩⟩
      · rw [hrun] at herr
        cases herr
      · rw [H.pgdir i hi] at hin
        exact C.faultIn_ok H hi ha hhas hraise hin
      · rw [hrun] at herr
        cases herr
  · rw [H₁.pgdir i hi₁] at hperm
    exact ⟨ret, w₁, hrun, H₁, hi₁, hperm⟩

/-- **`do_pgfault` grants exactly what the area permits**, and none of its assertions fires.  In any
state of a run, for any address and any error code that the processor can report: it returns; if it
returns 0, an area covers the address and allows the access, and the entry of the page is present
for the user, and writable exactly if the area is; otherwise no entry of any page table has
changed. -/
theorem fault_exact {ops : List (Op × Ret)} (h : Run (fun w op => ¬ CutsShared w op) ops w)
    (hi : i ∈ w.mms) (addr errorCode : ℕ) (write : Bool)
    (hraise : (w.vm.lookup i addr).Raises write errorCode) :
    ∃ ret mm vm, doPgfault (w.mm i) errorCode addr w.vm = .ok (ret, mm, vm) ∧
      (ret = 0 → ∃ a ∈ (w.mm i).areas, a.Has addr ∧ a.vmFlags.allows write = true ∧
        (vm.lookup i addr).present = true ∧ (vm.lookup i addr).perm.user = true ∧
        ((vm.lookup i addr).perm.writable = true ↔ a.vmFlags.write = true)) ∧
      (ret ≠ 0 → ∀ d la, vm.lookup d la = w.vm.lookup d la) := by
  have H := h.inv fun _ _ hop => hop
  have C := h.coherent fun _ _ hop => hop
  rcases doPgfault_spec (H.mm i hi) H.good (H.areas_backed hi) errorCode addr with
    ⟨mm, -, -, -, -, hrun⟩ | ⟨a, ha, hhas, ⟨-, herr, -⟩ | ⟨ret, mm, vm, -, -, -, hin, hrun, hf⟩⟩
  · exact ⟨_, _, _, hrun, fun h => absurd h (by decide), fun _ _ _ => rfl⟩
  · rw [H.pgdir i hi] at herr
    exact absurd herr (C.faultIn_ok H hi ha hhas hraise)
  · rw [H.pgdir i hi] at hin hf
    refine ⟨ret, mm, vm, hrun, ?_, fun hret d la => (hf.fail hret).1 d (pdx la) (ptx la)⟩
    rintro rfl
    obtain ⟨p, hp, -⟩ := hf.done rfl
    have hslot : vm.lookup i addr = ⟨p, true, ⟨a.vmFlags.write, true⟩⟩ :=
      (hp i (pdx addr) (ptx addr)).trans (Function.update_self ..)
    refine ⟨a, ha, hhas, ?_, ?_⟩
    · rw [← hraise.allowed]
      by_contra hno
      rw [Bool.not_eq_true] at hno
      rw [faultIn_refused hno, Except.ok.injEq, Prod.mk.injEq] at hin
      exact absurd hin.1 (by decide)
    · rw [hslot]
      exact ⟨rfl, rfl, Iff.rfl⟩

/-- A page that was copied on write is written to by the child first: it gets a page of its own.  And
a page of a shared memory object is read that another address space has filled: it is mapped, but
read-only, as its area is. -/
theorem fault_exact_cow :
    (∃ ops w, Run (fun w op => ¬ CutsShared w op) ops w ∧
      w.vm.lookup 1 0x400123 = ⟨6, true, ⟨false, true⟩⟩ ∧ ∃ mm vm,
      doPgfault (w.mm 1) 7 0x400123 w.vm = .ok (0, mm, vm) ∧
      (vm.lookup 1 0x400123).perm.writable = true) ∧
    ∃ ops w, Run (fun w op => ¬ CutsShared w op) ops w ∧
      (w.vm.lookup 1 0x801fff).present = false ∧ ∃ mm vm,
      doPgfault (w.mm 1) 4 0x801fff w.vm = .ok (0, mm, vm) ∧
      (vm.lookup 1 0x801fff).present = true ∧ (vm.lookup 1 0x801fff).perm.writable = false := by
  constructor
  · have h₀ : Run (fun w op => ¬ CutsShared w op) [] World.init := .init
    have h₁ := h₀.step id (show World.init.step (.mmCreate [some 1]) = .ok (.code 0, _) from rfl)
    have h₂ := h₁.step id (show World.step _ (.supply [some 5, some 6, some 7, some 8] [] []) =
      .ok (.code 0, _) from rfl)
    have h₃ := h₂.step id
      (show World.step _ (.mmMap 0 0x400000 0x1000 { write := true }) = .ok (.code 0, _) from rfl)
    have h₄ := h₃.step id (show World.step _ (.pgfault 0 6 0x400123) = .ok (.code 0, _) from rfl)
    have h₅ := h₄.step id (show World.step _ (.dupMmap 0 [some 1]) = .ok (.code 0, _) from rfl)
    obtain ⟨ret, mm, vm, hrun, hzero, -⟩ := fault_exact h₅ (i := 1) (by decide) 0x400123 7 true
      ⟨by decide, by decide, by decide⟩
    have hret : ret = 0 := by
      cases (show doPgfault _ 7 0x400123 _ = .ok (0, _, _) from rfl).symm.trans hrun
      rfl
    subst hret
    obtain ⟨a, ha, -, hallow, -, -, hw⟩ := hzero rfl
    exact ⟨_, _, h₅, rfl, mm, vm, hrun, hw.2 hallow⟩
  · have h₀ : Run (fun w op => ¬ CutsShared w op) [] World.init := .init
    have h₁ := h₀.step id (show World.init.step (.mmCreate [some 1]) = .ok (.code 0, _) from rfl)
    have h₂ := h₁.step id (show World.step _ (.mmCreate [some 1]) = .ok (.code 0, _) from rfl)
    have h₃ := h₂.step id (show World.step _ (.supply [some 20, some 21, some 22, some 23] [some 7]
      [some 1]) = .ok (.code 0, _) from rfl)
    have h₄ := h₃.step id (show World.step _ (.shmemCreate 0x1800) = .ok (.code 7, _) from rfl)
    have h₅ := h₄.step id (show World.step _ (.mmMapShmem 0 0x400000 { write := true } (some 7)) =
      .ok (.code 0, _) from rfl)
    have h₆ := h₅.step id (show World.step _ (.mmMapShmem 1 0x800000 { read := true } (some 7)) =
      .ok (.code 0, _) from rfl)
    have h₇ := h₆.step id (show World.step _ (.pgfault 0 6 0x401234) = .ok (.code 0, _) from rfl)
    obtain ⟨ret, mm, vm, hrun, hzero, -⟩ := fault_exact h₇ (i := 1) (by decide) 0x801fff 4 false
      ⟨by decide, by decide, by decide⟩
    have hret : ret = 0 := by
      cases (show doPgfault _ 4 0x801fff _ = .ok (0, _, _) from rfl).symm.trans hrun
      rfl
    subst hret
    obtain ⟨a, ha, -, -, hpresent, -, hw⟩ := hzero rfl
    have hone : a ∈ [(⟨0x800000, 0x802000, { read := true, share := true }, some 7, 0⟩ : Vma)] := ha
    rw [List.mem_singleton.1 hone] at hw
    exact ⟨_, _, h₇, rfl, mm, vm, hrun, hpresent, Bool.eq_false_iff.2 fun h => by cases hw.1 h⟩

end World

end Ucore
