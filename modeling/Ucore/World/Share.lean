import Ucore.World.Step

/-!
# Shared areas and their objects

A shared area has an object, and the reference count of an object is the number of areas that share
it.  `World.shared_areas` says so for every run in which `mm_unmap` does not cut a hole into a
shared area: this is a part of `World.Inv`, and the states in between are those of `Run.inv`.  What
it adds is that the addresses of a shared area which `mm_unmap` does not remove keep their object
and their offset into it (`KeepsOffsets`), which is a fact about the pieces of an area.

The condition on the run is needed.  The area that `mm_unmap` creates for the part in front of a
hole has `VM_SHARE` set but no object, while the part behind it keeps the reference.
`World.shared_areas_hole` is a run that ends there: three pages of an object are mapped, and the one
in the middle is unmapped.
-/

set_option autoImplicit false

namespace Ucore

namespace World

/-- Every shared area has an object, which is there, and the reference counts are right. -/
structure ShareSafe (w : World) : Prop where
  backed : ∀ i ∈ w.mms, ∀ a ∈ (w.mm i).areas, a.vmFlags.share = true →
    ∃ o, a.shmem = some o ∧ w.vm.shmem o ≠ none
  ref : ∀ o sh, w.vm.shmem o = some sh → sh.ref = w.shares o

/-- The addresses of shared areas that `mm_unmap` does not remove keep their object and their
offset. -/
def KeepsOffsets (w w' : World) (ret : Ret) : Op → Prop
  | .mmUnmap i addr len => ∀ a ∈ (w.mm i).areas, a.vmFlags.share = true → ∀ x, a.Has x →
    (ret ≠ .code 0 ∨ x < roundDown addr pgSize ∨ roundUp (addrAdd addr len) pgSize ≤ x) →
    ∃ b ∈ (w'.mm i).areas, b.Has x ∧ b.vmFlags.share = true ∧ b.shmem = a.shmem ∧
      b.offset x = a.offset x
  | _ => True

variable {w w' : World} {op : Op} {ret : Ret}

theorem Inv.shareSafe (H : w.Inv) : w.ShareSafe := by
  refine ⟨fun i hi a ha hshare => ?_, fun o sh ho => H.objects.ref o sh ho⟩
  obtain ⟨o, sh, ho, hsh, -⟩ := H.areas_backed hi a ha hshare
  refine ⟨o, ho, ?_⟩
  rw [hsh]
  exact Option.some_ne_none sh

theorem Inv.keepsOffsets (H : w.Inv) (hcut : ¬ CutsShared w op)
    (hstep : w.step op = .ok (ret, w')) :
    KeepsOffsets w w' ret op := by
  cases op with
  | mmUnmap i addr len =>
    intro a ha hshare x hx hout
    have hi : i ∈ w.mms := pointers_of_step hstep
    obtain ⟨r, mm, vm, hrun, -, hres⟩ := H.mmUnmap hi addr len hcut rfl rfl
    simp only [World.step, getMm_mem hi, hrun, Res.ok_bind, Res.pure_eq, Except.ok.injEq,
      Prod.mk.injEq] at hstep
    obtain ⟨rfl, rfl⟩ := hstep
    rw [set_mm_self]
    rcases hres with ⟨-, hareas, -⟩ | ⟨hret, hareas, -, hhole⟩
    · rw [hareas]
      exact ⟨a, ha, hx, hshare, rfl, rfl⟩
    · have hout' := hout.resolve_left fun h => h (by rw [hret])
      obtain ⟨b, hb, hbx, hflags, hobj, hoff⟩ := hx.piece hout'
      refine ⟨b, ?_, hbx, hflags ▸ hshare, hobj (hhole a ha hshare),
        hoff hshare (hhole a ha hshare)⟩
      rw [hareas]
      exact List.mem_flatMap.2 ⟨a, ha, hb⟩
  | _ => trivial

/-- **Shared areas never lose their object**, in any run in which no hole is cut into one of
them. -/
theorem shared_areas {ops : List (Op × Ret)} (h : Run (fun w op => ¬ CutsShared w op) ops w) :
    w.ShareSafe ∧ ∀ op ret w', ¬ CutsShared w op → w.step op = .ok (ret, w') →
      Kept w w' ∧ KeepsOffsets w w' ret op := by
  have H := h.inv fun _ _ hop => hop
  exact ⟨H.shareSafe, fun op ret w' hcut hstep =>
    ⟨(H.step_ok hcut hstep).2, H.keepsOffsets hcut hstep⟩⟩

/-- An object of three pages is mapped, and the last page unmapped again. -/
theorem shared_areas_tail : ∃ ops w, Run (fun w op => ¬ CutsShared w op) ops w ∧ w.ShareSafe ∧
    w.shares 7 = 1 := by
  have h₀ : Run (fun w op => ¬ CutsShared w op) [] World.init := .init
  have h₁ := h₀.step id
    (show World.init.step (.mmCreate [some 1]) = .ok (.code 0, _) from rfl)
  have h₂ := h₁.step id (show World.step _ (.supply [] [some 7] []) = .ok (.code 0, _) from rfl)
  have h₃ := h₂.step id (show World.step _ (.shmemCreate 0x3000) = .ok (.code 7, _) from rfl)
  have h₄ := h₃.step id
    (show World.step _ (.mmMapShmem 0 0x400000 {} (some 7)) = .ok (.code 0, _) from rfl)
  have h₅ := h₄.step (show ¬ CutsShared _ (.mmUnmap 0 0x402000 0x1000) from fun h => h.2.1 rfl)
    (show World.step _ (.mmUnmap 0 0x402000 0x1000) = .ok (.code 0, _) from rfl)
  exact ⟨_, _, h₅, (shared_areas h₅).1, rfl⟩

/-- The object is mapped, and the page in the middle unmapped: the first page is left in a shared
area without an object. -/
theorem shared_areas_hole : ¬ ∀ ops w, Run (fun _ _ => True) ops w → w.ShareSafe := by
  intro hall
  have h₀ : Run (fun _ _ => True) [] World.init := .init
  have h₁ := h₀.step trivial
    (show World.init.step (.mmCreate [some 1, some 2]) = .ok (.code 0, _) from rfl)
  have h₂ := h₁.step trivial
    (show World.step _ (.supply [] [some 7] []) = .ok (.code 0, _) from rfl)
  have h₃ := h₂.step trivial (show World.step _ (.shmemCreate 0x3000) = .ok (.code 7, _) from rfl)
  have h₄ := h₃.step trivial
    (show World.step _ (.mmMapShmem 0 0x400000 {} (some 7)) = .ok (.code 0, _) from rfl)
  have h₅ := h₄.step trivial
    (show World.step _ (.mmUnmap 0 0x401000 0x1000) = .ok (.code 0, _) from rfl)
  obtain ⟨o, ho, -⟩ := (hall _ _ h₅).backed 0 (by decide)
    ⟨0x400000, 0x401000, { share := true }, none, 0⟩ (by decide) rfl
  cases ho

end World

end Ucore
