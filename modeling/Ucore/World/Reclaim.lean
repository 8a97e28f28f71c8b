import Ucore.World.Counts

/-!
# Page tables that are given back

`exit_mmap` frees page tables by going through the areas that there still are.  A page table that
was made for an area which `mm_unmap` has removed since is only found if some other area has
addresses in the same four megabytes.

* `World.pageTables_reclaimed` says that `exit_mmap` leaves no page table behind exactly if every
  one of them meets an area.  After the first loop, before page tables are freed, no entry of the
  directory is present, so the tables are empty when `exit_range` finds them.
* `World.pageTables_leak` is a run in which one does not: a page is mapped, touched and unmapped
  again, and its page table is still in use when the address space is left.

The runs here are those without `mm_map_shmem`, so that nothing has to be said about holes in shared
areas.  That there are no shared areas in them is `Run.unshared`, with one lemma for each of the
ways in which the areas of a world change: `NoShare.set`, `NoShare.add` and `NoShare.same`.
-/

set_option autoImplicit false

namespace Ucore

open Vm

/-- Every operation but `mm_map_shmem`. -/
def Op.unshared : Op → Bool
  | .mmMapShmem _ _ _ _ => false
  | _ => true

namespace World

/-- There are no shared areas. -/
def NoShare (w : World) : Prop := ∀ i ∈ w.mms, ∀ a ∈ (w.mm i).areas, a.vmFlags.share = false

variable {w w' : World} {op : Op} {ret : Ret} {ops : List (Op × Ret)}

theorem NoShare.not_cuts (h : w.NoShare) (hptr : Pointers w op) : ¬ CutsShared w op := by
  cases op with
  | mmUnmap i addr len =>
    rintro ⟨-, -, a, ha, hshare, -⟩
    rw [h i hptr a ha] at hshare
    cases hshare
  | _ => exact id

/-! ## Runs without shared areas -/

theorem doPgfault_areas {mm mm' : Mm} (Hm : mm.Inv) {errorCode addr : ℕ} {s s' : Vm} {r : ℤ}
    (h : doPgfault mm errorCode addr s = .ok (r, mm', s')) : mm'.areas = mm.areas := by
  obtain ⟨c, hfind, -⟩ := Hm.findVma_spec addr
  simp only [doPgfault, hfind, Res.ok_bind] at h
  split at h
  · cases h
    rfl
  · obtain ⟨x, -, h⟩ := Res.bind_eq_ok.1 h
    cases h
    rfl

theorem areas_set (i : ℕ) {mm : Mm} (vm : Vm) (h : mm.areas = (w.mm i).areas) (j : ℕ) :
    ((w.set i mm vm).mm j).areas = (w.mm j).areas := by
  show (Function.update w.mm i mm j).areas = _
  by_cases hj : j = i
  · rw [hj, Function.update_self, h]
  · rw [Function.update_of_ne hj]

theorem access_areas (H : w.Inv) {i addr : ℕ} {write : Bool} {r : ℤ}
    (h : w.access i addr write = .ok (r, w')) (j : ℕ) : (w'.mm j).areas = (w.mm j).areas := by
  obtain ⟨hi, rfl | ⟨mm, vm, hrun, rfl⟩⟩ := access_cases h
  · rfl
  · exact areas_set i vm (doPgfault_areas (H.mm i hi) hrun) j

/-- An address space has other areas, -/
theorem NoShare.set (h : w.NoShare) {i : ℕ} {mm : Mm} (vm : Vm)
    (hmm : ∀ a ∈ mm.areas, a.vmFlags.share = false) : (w.set i mm vm).NoShare := by
  intro j hj a ha
  by_cases hji : j = i
  · subst hji
    rw [set_mm_self] at ha
    exact hmm a ha
  · rw [set_mm_of_ne w hji] at ha
    exact h j hj a ha

/-- or is new, -/
theorem NoShare.add (h : w.NoShare) {mm : Mm} (vm : Vm)
    (hmm : ∀ a ∈ mm.areas, a.vmFlags.share = false) :
    (w.add mm vm).NoShare := by
  intro j hj a ha
  by_cases hjn : j = w.next
  · rw [hjn, add_mm_next] at ha
    exact hmm a ha
  · rw [add_mm_of_ne w hjn] at ha
    exact h j ((Finset.mem_insert.1 hj).resolve_left hjn) a ha

/-- or all areas stay the same. -/
theorem NoShare.same (h : w.NoShare) (hsub : w'.mms ⊆ w.mms)
    (hareas : ∀ j, (w'.mm j).areas = (w.mm j).areas) : w'.NoShare := by
  intro j hj a ha
  rw [hareas] at ha
  exact h j (hsub hj) a ha

/-- The areas of an address space after an operation other than `mm_map_shmem` are not shared if
they were not. -/
theorem NoShare.step (h : w.NoShare) (H : w.Inv) (hop : op.unshared = true)
    (hstep : w.step op = .ok (ret, w')) : w'.NoShare := by
  have hptr := pointers_of_step hstep
  have hcut := h.not_cuts hptr
  cases op with
  | mmCreate script =>
    cases hstep
    exact h.add _ fun a ha => absurd ha List.not_mem_nil
  | shmemCreate len =>
    simp only [World.step] at hstep
    split at hstep
    · cases hstep
      exact h
    · cases hstep
      exact h
  | mmMap i addr len flags =>
    obtain ⟨r, v, mm, hrun, -, -, hnew⟩ := H.mmMap hptr addr len flags
    simp only [World.step, getMm_mem hptr, hrun, Res.ok_bind] at hstep
    cases hstep
    refine h.set _ fun a ha => ?_
    rcases hnew a ha with ha | ⟨hshare, -⟩
    · exact h i hptr a ha
    · exact hshare
  | mmMapShmem i addr flags shmem => cases hop
  | mmUnmap i addr len =>
    obtain ⟨r, mm, vm, hrun, -, hres⟩ := H.mmUnmap hptr addr len hcut rfl rfl
    simp only [World.step, getMm_mem hptr, hrun, Res.ok_bind] at hstep
    cases hstep
    refine h.set vm fun a ha => ?_
    rcases hres with ⟨-, hareas, -⟩ | ⟨-, hareas, -⟩
    · rw [hareas] at ha
      exact h i hptr a ha
    · rw [hareas] at ha
      obtain ⟨b, hb, hab⟩ := List.mem_flatMap.1 ha
      rw [(Vma.of_mem_pieces hab).1]
      exact h i hptr b hb
  | pgfault i errorCode addr =>
    simp only [World.step, getMm_mem hptr, Res.ok_bind] at hstep
    obtain ⟨⟨r, mm, vm⟩, hrun, hstep⟩ := Res.bind_eq_ok.1 hstep
    cases hstep
    refine h.set vm fun a ha => h i hptr a ?_
    rw [doPgfault_areas (H.mm i hptr) hrun] at ha
    exact ha
  | dupMmap src script =>
    obtain ⟨r, mm, vm, as, cs, hrun, -, hareas, hcopy, -⟩ := H.dupMmap hptr script
    simp only [World.step, getMm_mem hptr, hrun, Res.ok_bind] at hstep
    cases hstep
    refine h.add vm fun a ha => ?_
    rw [hcopy] at ha
    obtain ⟨c, hc, rfl⟩ := List.mem_map.1 ha
    rw [Vma.dup_flags]
    exact h src hptr c (by rw [hareas]; exact List.mem_append_right _ hc)
  | exitMmap i =>
    simp only [World.step, getMm_mem hptr, Res.ok_bind] at hstep
    obtain ⟨vm, -, hstep⟩ := Res.bind_eq_ok.1 hstep
    cases hstep
    exact h.set vm (h i hptr)
  | mmDestroy i =>
    simp only [World.step, getMm_mem hptr, Res.ok_bind] at hstep
    obtain ⟨x, -, hstep⟩ := Res.bind_eq_ok.1 hstep
    cases hstep
    exact h.same (Finset.erase_subset _ _) fun _ => rfl
  | read i addr =>
    obtain ⟨r, hacc⟩ := userRead_cases hstep
    exact h.same (access_mms hacc).2.subset (access_areas H hacc)
  | write i addr b =>
    obtain ⟨r, w₁, hacc, rfl | ⟨p, rfl⟩⟩ := userWrite_cases hstep
    · exact h.same (access_mms hacc).2.subset (access_areas H hacc)
    · have hw₁ := h.same (access_mms hacc).2.subset (access_areas H hacc)
      exact hw₁
  | supply frames objects nodes =>
    cases hstep
    exact h
  | supplyMm i script =>
    simp only [World.step, getMm_mem hptr, Res.ok_bind] at hstep
    cases hstep
    exact h.set _ (h i hptr)
  | scribble page contents =>
    have hp : page ∉ w.vm.frames.live := hptr
    simp only [World.step, if_neg hp] at hstep
    cases hstep
    exact h

/-- A run without `mm_map_shmem` has no shared areas, and keeps the invariant. -/
theorem Run.unshared {ok : World → Op → Prop} (hok : ∀ w op, ok w op → op.unshared = true)
    (h : Run ok ops w) : w.Inv ∧ w.NoShare := by
  induction h with
  | init => exact ⟨Inv.init, fun i hi => absurd hi (Finset.notMem_empty i)⟩
  | step _ hop hstep ih =>
    obtain ⟨H, hns⟩ := ih
    exact ⟨(H.step_ok (hns.not_cuts (pointers_of_step hstep)) hstep).1,
      hns.step H (hok _ _ hop) hstep⟩

/-! ## `exit_mmap` -/

/-- A page directory entry that covers user addresses. -/
def UserPde (k : ℕ) : Prop := TableMeets userBase userTop k

/-- **What becomes of the page tables of an address space.**  `exit_mmap` returns.  After its first
loop, before any page table is freed, no entry of the directory is present.  The page tables that
are freed are the ones that meet an area, and all of them are gone if and only if each of them did
so. -/
theorem pageTables_reclaimed (h : Run (fun _ op => op.unshared = true) ops w) {i : ℕ}
    (hi : i ∈ w.mms) : ∃ vm₁ vm₂, unmapAll (w.mm i) w.vm = .ok vm₁ ∧
      exitAll (w.mm i) vm₁ = .ok vm₂ ∧ w.step (.exitMmap i) = .ok (.code 0, w.set i (w.mm i) vm₂) ∧
      (∀ la, (vm₁.lookup i la).present = false) ∧
      (∀ k f, w.vm.pgdir i k = some f → (vm₂.pgdir i k = none ↔ f ∉ vm₂.frames.live)) ∧
      ((∀ k, UserPde k → vm₂.pgdir i k = none) ↔
        ∀ k, UserPde k → w.vm.pgdir i k ≠ none → MeetsTable (w.mm i).areas k) := by
  obtain ⟨H, -⟩ := h.unshared fun _ _ hop => hop
  obtain ⟨vm₁, vm₂, hrun, -, hrest, hempty, -, hexit, hun, hall⟩ := H.exitMmap hi
  have hgone : ∀ k f, w.vm.pgdir i k = some f →
      (vm₂.pgdir i k = none ↔ MeetsTable (w.mm i).areas k) := by
    intro k f hf
    refine ⟨fun hnone => ?_, hexit.freed k⟩
    by_contra hmeets
    rw [hexit.other i k fun h => hmeets h.2, hrest.pgdir, hf] at hnone
    cases hnone
  refine ⟨vm₁, vm₂, hun, hall, ?_, ?_, ?_, ?_⟩
  · simp only [World.step, getMm_mem hi, Res.ok_bind, hrun]
    rfl
  · intro la
    show (vm₁.slots (userSlot i la)).present = false
    rw [userSlot, hempty]
    rfl
  · intro k f hf
    rw [hgone k f hf]
    constructor
    · intro hmeets hlive
      exact ((hexit.live f).1 hlive).2 ⟨k, hmeets, by rw [hrest.pgdir]; exact hf⟩
    · -- a page table that is still there is in use
      intro hfreed
      by_contra hmeets
      have hf' : vm₂.pgdir i k = some f := by
        rw [hexit.other i k fun h => hmeets h.2, hrest.pgdir, hf]
      exact hfreed (hexit.good.tables (.dir i k) f hf').1
  · constructor
    · intro hnone k hk hsome
      obtain ⟨f, hf⟩ := Option.ne_none_iff_exists'.1 hsome
      exact (hgone k f hf).1 (hnone k hk)
    · intro hmeets k hk
      cases hf : w.vm.pgdir i k with
      | some f => exact (hgone k f hf).2 (hmeets k hk (by rw [hf]; exact Option.some_ne_none f))
      | none =>
        by_cases hk' : MeetsTable (w.mm i).areas k
        · exact hexit.freed k hk'
        · rw [hexit.other i k fun h => hk' h.2, hrest.pgdir, hf]

/-- A page is mapped and touched, and the address space is left with all its areas. -/
theorem pageTables_reclaimed_touched : ∃ ops w vm₂, Run (fun _ op => op.unshared = true) ops w ∧
    w.vm.pgdir 0 1 = some 5 ∧ w.step (.exitMmap 0) = .ok (.code 0, w.set 0 (w.mm 0) vm₂) ∧
    (∀ k, UserPde k → vm₂.pgdir 0 k = none) ∧ 5 ∉ vm₂.frames.live := by
  have h₀ : Run (fun _ op => op.unshared = true) [] World.init := .init
  have h₁ := h₀.step rfl (show World.init.step (.mmCreate [some 1]) = .ok (.code 0, _) from rfl)
  have h₂ := h₁.step rfl
    (show World.step _ (.supply [some 5, some 6] [] []) = .ok (.code 0, _) from rfl)
  have h₃ := h₂.step rfl
    (show World.step _ (.mmMap 0 0x400000 0x1000 { write := true }) = .ok (.code 0, _) from rfl)
  have h₄ := h₃.step rfl (show World.step _ (.pgfault 0 6 0x400123) = .ok (.code 0, _) from rfl)
  obtain ⟨vm₁, vm₂, -, -, hstep, -, hfree, hgone⟩ := pageTables_reclaimed h₄ (i := 0) (by decide)
  have hnone : ∀ k, UserPde k → vm₂.pgdir 0 k = none := by
    refine hgone.2 fun k _ hk => ?_
    by_cases hk1 : k = 1
    · subst hk1
      exact ⟨⟨0x400000, 0x401000, { write := true }, none, 0⟩, by decide, by decide, by decide⟩
    · have hk' : Function.update (fun _ : ℕ => (none : Option ℕ)) 1 (some 5) k ≠ none := hk
      exact absurd (Function.update_of_ne hk1 ..) hk'
  exact ⟨_, _, vm₂, h₄, rfl, hstep, hnone, (hfree 1 5 rfl).1 (hnone 1 ⟨by decide, by decide⟩)⟩

/-- The page is unmapped before the address space is left: its page table stays. -/
theorem pageTables_leak : ¬ ∀ ops w, Run (fun _ op => op.unshared = true) ops w → ∀ i ∈ w.mms, ∀ w',
    w.step (.exitMmap i) = .ok (.code 0, w') → ∀ k, UserPde k → w'.vm.pgdir i k = none := by
  intro hall
  have h₀ : Run (fun _ op => op.unshared = true) [] World.init := .init
  have h₁ := h₀.step rfl (show World.init.step (.mmCreate [some 1]) = .ok (.code 0, _) from rfl)
  have h₂ := h₁.step rfl
    (show World.step _ (.supply [some 5, some 6] [] []) = .ok (.code 0, _) from rfl)
  have h₃ := h₂.step rfl
    (show World.step _ (.mmMap 0 0x400000 0x1000 { write := true }) = .ok (.code 0, _) from rfl)
  have h₄ := h₃.step rfl (show World.step _ (.pgfault 0 6 0x400123) = .ok (.code 0, _) from rfl)
  have h₅ := h₄.step rfl
    (show World.step _ (.mmUnmap 0 0x400000 0x1000) = .ok (.code 0, _) from rfl)
  have hleft := hall _ _ h₅ 0 (by decide) _
    (show World.step _ (.exitMmap 0) = .ok (.code 0, _) from rfl) 1 ⟨by decide, by decide⟩
  cases hleft

end World

end Ucore
