import Ucore.World.Step

/-!
# What an operation can change

There are fourteen operations, but many of them do the same kind of thing to the memory, and a user
access does what a page fault does.  `Change` says once what the operations do to areas, entries and
objects, in eleven cases.

* `Inv.change` splits an operation into at most two changes: a write that faults is a fault, and
  then a write.  For each operation it only has to be said which change it is, since `Change` asks
  for what the lemmas of `Ucore.World.Effects` and `Ucore.World.Fault` give.
* `Run.preserves` is the rule that follows: what every change keeps holds in every state of a run.

A property that is proved with it has to look at a change only, and not at the code again.  This is
how the coherence of shared memory is proved in `Ucore.World.Coherent`, whose step is
`Coherent.change`.
-/

set_option autoImplicit false

namespace Ucore

open Vm

namespace World

/-- **One change to the world.** -/
inductive Change (w : World) : World → Prop
  /-- `mm_create`. -/
  | create {mm : Mm} (hareas : mm.areas = []) : Change w (w.add mm w.vm)
  /-- `shmem_create`. -/
  | object {vm : Vm} {o : ℕ} {sh : Shmem} (hslots : vm.slots = w.vm.slots)
      (hfresh : w.vm.shmem o = none) (hshmem : vm.shmem = Function.update w.vm.shmem o (some sh))
      (hlist : sh.shmnList = []) (hcache : sh.shmnCache = none) : Change w { w with vm := vm }
  /-- The allocators, or contents of frames. -/
  | memory {vm : Vm} (hslots : vm.slots = w.vm.slots) (hshmem : vm.shmem = w.vm.shmem) :
      Change w { w with vm := vm }
  /-- The cache, or the allocator, of one address space. -/
  | cache {i : ℕ} {mm : Mm} (hi : i ∈ w.mms) (hareas : mm.areas = (w.mm i).areas) :
      Change w (w.set i mm w.vm)
  /-- `mm_map`. -/
  | map {i : ℕ} {mm : Mm} (hi : i ∈ w.mms) (hnew : ∀ a ∈ mm.areas, a ∈ (w.mm i).areas ∨
      a.vmFlags.share = false ∧ ∀ b ∈ (w.mm i).areas, ∀ la, a.Has la → ¬ b.Has la) :
      Change w (w.set i mm w.vm)
  /-- `mm_map_shmem`. -/
  | mapShmem {i addr : ℕ} {flags : VmFlags} {mm : Mm} {vm : Vm} (hi : i ∈ w.mms)
      (hnodes : SameNodes w.vm vm) (hdirs : SameDirs w.vm vm)
      (Hm : mm.Inv) (hnew : ∀ a ∈ mm.areas, a ∈ (w.mm i).areas ∨
        (∀ b ∈ (w.mm i).areas, ∀ la, a.Has la → ¬ b.Has la) ∧ ∃ o sh, addr % pgSize = 0 ∧
          w.vm.shmem o = some sh ∧ a = ⟨roundDown addr pgSize, roundUp (addrAdd addr sh.len) pgSize,
            { flags with share := true }, some o, 0⟩) : Change w (w.set i mm vm)
  /-- `mm_unmap`. -/
  | unmap {i start stop : ℕ} {mm : Mm} {vm : Vm} (hi : i ∈ w.mms) (hnodes : SameNodes w.vm vm)
      (hlt : start < stop) (Hm : mm.Inv)
      (hareas : mm.areas = (w.mm i).areas.flatMap (Vma.pieces start stop))
      (hun : Unmapped i start stop (w.mm i).areas w.vm vm)
      (hhole : ∀ a ∈ (w.mm i).areas, a.vmFlags.share = true → ¬ a.Hole start stop) :
      Change w (w.set i mm vm)
  /-- `do_pgfault`. -/
  | fault {i errorCode addr : ℕ} {ret : ℤ} {a : Vma} {mm : Mm} {vm : Vm} (hi : i ∈ w.mms)
      (ha : a ∈ (w.mm i).areas) (hhas : a.Has addr) (hareas : mm.areas = (w.mm i).areas)
      (hrun : faultIn a i errorCode addr w.vm = .ok (ret, vm))
      (hf : Faulted a i addr ret w.vm vm) : Change w (w.set i mm vm)
  /-- `dup_mmap`. -/
  | dup {i : ℕ} {mm : Mm} {vm : Vm} {as cs : List Vma} (hi : i ∈ w.mms)
      (hnodes : SameNodes w.vm vm) (hareas : (w.mm i).areas = as ++ cs)
      (hcopy : mm.areas = cs.map Vma.dup) (hdup : Duped w.next i cs w.vm vm) :
        Change w (w.add mm vm)
  /-- `exit_mmap`. -/
  | exit {i : ℕ} {vm : Vm} (hi : i ∈ w.mms) (hnodes : SameNodes w.vm vm)
      (hempty : ∀ k j, vm.slots (.dir i k, j) = Pte.zero) (hother : SameBut i w.vm vm) :
      Change w (w.set i (w.mm i) vm)
  /-- `mm_destroy`. -/
  | destroy {i : ℕ} {vm : Vm} (hi : i ∈ w.mms) (hnodes : SameNodes w.vm vm)
      (hdirs : SameDirs w.vm vm) : Change w { w with mms := w.mms.erase i, vm := vm }

theorem Change.refl (w : World) : Change w w := .memory rfl rfl

variable {w w' : World} {op : Op} {ret : Ret}

/-- A fault that was served, or refused. -/
theorem Inv.doPgfault_change (H : w.Inv) {i : ℕ} (hi : i ∈ w.mms) {errorCode addr : ℕ} {r : ℤ}
    {mm : Mm} {vm : Vm} (h : Ucore.doPgfault (w.mm i) errorCode addr w.vm = .ok (r, mm, vm)) :
    Change w (w.set i mm vm) ∧ (w.set i mm vm).Inv := by
  rcases doPgfault_spec (H.mm i hi) H.good (H.areas_backed hi) errorCode addr with
    ⟨mm', Hm, hareas, hp, -, hrun⟩ | ⟨a, ha, hhas, ⟨hrun, -⟩ |
      ⟨ret, mm', vm', Hm, hareas, hp, hin, hrun, hf⟩⟩
  · rw [hrun] at h
    cases h
    refine ⟨.cache hi hareas, (H.setMm hi Hm (hp.trans (H.pgdir i hi)) (fun a h => hareas ▸ h)
      (fun o => by rw [hareas]) ?_).1⟩
    rw [hareas]
    exact H.backed i hi
  · rw [hrun] at h
    cases h
  · rw [hrun] at h
    cases h
    rw [H.pgdir i hi] at hin hf
    exact ⟨.fault hi ha hhas hareas hin hf,
      (H.of_faulted hi ha hhas Hm hareas (hp.trans (H.pgdir i hi)) hf).1.1⟩

/-- A user access. -/
theorem Inv.access_change (H : w.Inv) {i addr : ℕ} {write : Bool} {r : ℤ}
    (h : w.access i addr write = .ok (r, w')) : Change w w' ∧ w'.Inv := by
  obtain ⟨hi, rfl | ⟨mm, vm, hrun, rfl⟩⟩ := access_cases h
  · exact ⟨.refl w', H⟩
  · exact H.doPgfault_change hi hrun

/-- **An operation makes at most two changes.** -/
theorem Inv.change (H : w.Inv) (hcut : ¬ CutsShared w op) (h : w.step op = .ok (ret, w')) :
    ∃ w₁, Change w w₁ ∧ w₁.Inv ∧ Change w₁ w' := by
  have hptr := pointers_of_step h
  have H' := (H.step_ok hcut h).1
  -- all operations but one make one change
  suffices hone : Change w w' ∨ ∃ w₁, Change w w₁ ∧ w₁.Inv ∧ Change w₁ w' by
    rcases hone with hone | htwo
    · exact ⟨w', hone, H', .refl w'⟩
    · exact htwo
  cases op with
  | mmCreate script =>
    cases h
    exact .inl (.create rfl)
  | shmemCreate len =>
    left
    obtain ⟨o, vm, hrun, -, hslots⟩ := H.shmemCreate len
    rw [World.step, hrun] at h
    rw [Ucore.shmemCreate] at hrun
    rcases htake : w.vm.shmemPool.take with ⟨_ | o', pool⟩
    · rw [htake] at hrun
      cases hrun
      cases h
      exact .memory rfl rfl
    · rw [htake] at hrun
      cases hrun
      cases h
      refine .object (o := o') hslots ?_ rfl rfl rfl
      cases hsh : w.vm.shmem o' with
      | none => rfl
      | some sh => exact absurd (H.objects.live o' sh hsh) (Pool.take_some htake).1
  | mmMap i addr len flags =>
    left
    obtain ⟨r, v, mm, hrun, -, -, hnew⟩ := H.mmMap hptr addr len flags
    simp only [World.step, getMm_mem hptr, hrun, Res.ok_bind] at h
    cases h
    exact .map hptr hnew
  | mmMapShmem i addr flags shmem =>
    left
    obtain ⟨r, mm, vm, hrun, ⟨H₁, -, hnodes⟩, hdirs, hnew⟩ :=
      H.mmMapShmem hptr.1 addr flags shmem hptr.2
    simp only [World.step, getMm_mem hptr.1, hrun, Res.ok_bind] at h
    cases h
    have Hm := H₁.mm i hptr.1
    rw [set_mm_self] at Hm
    exact .mapShmem hptr.1 hnodes hdirs Hm hnew
  | mmUnmap i addr len =>
    left
    obtain ⟨r, mm, vm, hrun, ⟨H₁, -, hnodes⟩, hres⟩ := H.mmUnmap hptr addr len hcut rfl rfl
    have hret := H.mmUnmap_access hptr hrun
    simp only [World.step, getMm_mem hptr, hrun, Res.ok_bind] at h
    cases h
    have Hm := H₁.mm i hptr
    rw [set_mm_self] at Hm
    rcases hres with ⟨-, hareas, rfl⟩ | ⟨hr, hareas, hun, hhole⟩
    · exact .cache hptr hareas
    · exact .unmap hptr hnodes (hret hr) Hm hareas hun hhole
  | pgfault i errorCode addr =>
    left
    simp only [World.step, getMm_mem hptr, Res.ok_bind] at h
    obtain ⟨⟨r, mm, vm⟩, hrun, h⟩ := Res.bind_eq_ok.1 h
    cases h
    exact (H.doPgfault_change hptr hrun).1
  | dupMmap src script =>
    left
    obtain ⟨r, mm, vm, as, cs, hrun, ⟨-, -, hnodes⟩, hareas, hcopy, hdup, -⟩ :=
      H.dupMmap hptr script
    simp only [World.step, getMm_mem hptr, hrun, Res.ok_bind] at h
    cases h
    exact .dup hptr hnodes hareas hcopy hdup
  | exitMmap i =>
    left
    obtain ⟨vm₁, vm, hrun, -, hrest, hempty, hother, hexit, -⟩ := H.exitMmap hptr
    simp only [World.step, getMm_mem hptr, hrun, Res.ok_bind] at h
    cases h
    refine .exit hptr (SameNodes.of_eq (hexit.shmem.trans hrest.shmem) fun o m j => ?_) ?_ ?_
    · rw [hexit.slots]
      exact hother _ fun k h => by cases h
    · rw [hexit.slots]
      exact hempty
    · intro e he k j
      rw [hexit.slots]
      exact hother _ fun k' h => he (Owner.dir.inj h).1
  | mmDestroy i =>
    left
    obtain ⟨mm, vm, hrun, ⟨-, -, hnodes⟩, hdirs, -⟩ := H.mmDestroy hptr
    simp only [World.step, getMm_mem hptr, hrun, Res.ok_bind] at h
    cases h
    exact .destroy hptr hnodes hdirs
  | read i addr =>
    left
    obtain ⟨r, hacc⟩ := userRead_cases h
    exact (H.access_change hacc).1
  | write i addr b =>
    obtain ⟨r, w₁, hacc, rfl | ⟨p, rfl⟩⟩ := userWrite_cases h
    · exact .inl (H.access_change hacc).1
    · obtain ⟨hchange, H₁⟩ := H.access_change hacc
      exact .inr ⟨w₁, hchange, H₁, .memory rfl rfl⟩
  | supply frames objects nodes =>
    cases h
    exact .inl (.memory rfl rfl)
  | supplyMm i script =>
    simp only [World.step, getMm_mem hptr, Res.ok_bind] at h
    cases h
    exact .inl (.cache hptr rfl)
  | scribble page contents =>
    have hp : page ∉ w.vm.frames.live := hptr
    simp only [World.step, if_neg hp] at h
    cases h
    exact .inl (.memory rfl rfl)

/-- **What every change keeps holds in every state of a run.** -/
theorem Run.preserves {P : World → Prop} (hinit : P World.init)
    (hP : ∀ w w', w.Inv → w'.Inv → Change w w' → P w → P w') {ok : World → Op → Prop}
    (hok : ∀ w op, ok w op → ¬ CutsShared w op) {ops : List (Op × Ret)} (h : Run ok ops w) :
    P w := by
  induction h with
  | init => exact hinit
  | step run hop hstep ih =>
    have H := run.inv hok
    obtain ⟨w₁, hchange, H₁, hchange₁⟩ := H.change (hok _ _ hop) hstep
    exact hP _ _ H₁ (H.step_ok (hok _ _ hop) hstep).1 hchange₁ (hP _ _ H H₁ hchange ih)

end World

end Ucore
