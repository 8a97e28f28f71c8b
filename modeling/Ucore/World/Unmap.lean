import Ucore.World.Reclaim

/-!
# What `mm_unmap` removes

`World.mmUnmap_exact` says what a call of `mm_unmap` on a range of user addresses does in a world
without shared areas: if it succeeds, the pages of the range are gone, from the areas and from the
page table, and nothing else has changed; if there is no memory for the second part of an area that
is cut in two, nothing has changed at all.

Which areas are left is known from `Inv.mmUnmap_cases`, in terms of pieces.  What is said here is
said in terms of addresses: an address is covered by an area with certain flags afterwards exactly
if it was before and lies outside of the range (`Mm.covers_pieces`).  The entries are those of
`Unmapped`, and the world is one that a run leads to, so every entry that is present lies in some
area; this is why the entries of the whole range are 0 in the end, and not only those in the areas
that the loop of `mm_unmap` goes through.
-/

set_option autoImplicit false

namespace Ucore

open Vm

/-- Some area with these flags covers the address. -/
def Mm.Covers (mm : Mm) (flags : VmFlags) (la : ℕ) : Prop :=
  ∃ a ∈ mm.areas, a.Has la ∧ a.vmFlags = flags

/-- Areas replaced by their pieces cover the addresses outside of the range that they covered
before. -/
theorem Mm.covers_pieces {mm mm' : Mm} {start stop : ℕ} (hlt : start < stop)
    (h : mm'.areas = mm.areas.flatMap (Vma.pieces start stop)) (flags : VmFlags) (la : ℕ) :
    mm'.Covers flags la ↔ mm.Covers flags la ∧ ¬ (start ≤ la ∧ la < stop) := by
  rw [Mm.Covers, h]
  constructor
  · rintro ⟨b, hb, hhas, rfl⟩
    obtain ⟨a, ha, hb⟩ := List.mem_flatMap.1 hb
    obtain ⟨hhas', hout⟩ := hhas.of_piece hlt hb
    exact ⟨⟨a, ha, hhas', (Vma.of_mem_pieces hb).1.symm⟩, by omega⟩
  · rintro ⟨⟨a, ha, hhas, rfl⟩, hout⟩
    obtain ⟨b, hb, hhas', hflags, -⟩ := hhas.piece (show la < start ∨ stop ≤ la by omega)
    exact ⟨b, List.mem_flatMap.2 ⟨a, ha, hb⟩, hhas', hflags⟩

namespace World

variable {w : World} {ops : List (Op × Ret)}

/-- On a range of user addresses `mm_unmap` succeeds or has no memory. -/
theorem Inv.mmUnmap_ret (H : w.Inv) {i addr len : ℕ} (hi : i ∈ w.mms)
    (hacc : userAccess (roundDown addr pgSize) (roundUp (addrAdd addr len) pgSize) = true) {ret : ℤ}
    {mm : Mm} {vm : Vm} (h : Ucore.mmUnmap vmBackend (w.mm i) addr len w.vm = .ok (ret, mm, vm)) :
    ret = 0 ∨ ret = -eNoMem := by
  rcases (H.mm i hi).mmUnmap_cases vmBackend addr len rfl rfl with ⟨hno, -⟩ |
    ⟨-, -, -, mm', -, -, -, hrun⟩ | ⟨-, -, mm', -, -, -, hrun⟩
  · rw [hacc] at hno
    cases hno
  · rw [hrun] at h
    cases h
    exact .inr rfl
  · rw [hrun] at h
    obtain ⟨vm', -, h⟩ := Res.bind_eq_ok.1 h
    cases h
    exact .inl rfl

/-- **`mm_unmap` removes exactly the requested pages.**  After any run without shared areas it
returns.  If it returns 0, the addresses that are covered are those that were covered before and lie
outside of the range, with their flags; the entries of pages of the range that were in an area are
0, and all others are what they were, in every directory.  Otherwise it returns `-E_NO_MEM`, and
areas and entries are as before. -/
theorem mmUnmap_exact (h : Run (fun _ op => op.unshared = true) ops w) (i addr len : ℕ)
    {start stop : ℕ} (hi : i ∈ w.mms) (hstart : start = roundDown addr pgSize)
    (hstop : stop = roundUp (addrAdd addr len) pgSize) (hacc : userAccess start stop = true) :
    ∃ ret w', w.step (.mmUnmap i addr len) = .ok (.code ret, w') ∧ w'.mms = w.mms ∧
      (∀ j, j ≠ i → w'.mm j = w.mm j) ∧
      ((ret = 0 ∧
        (∀ flags la, (w'.mm i).Covers flags la ↔
          (w.mm i).Covers flags la ∧ ¬ (start ≤ la ∧ la < stop)) ∧
        (∀ la, start ≤ la → la < stop → (∃ flags, (w.mm i).Covers flags la) →
          w'.vm.lookup i la = Pte.zero) ∧
        (∀ d la, ¬ (d = i ∧ start ≤ la ∧ la < stop) → w'.vm.lookup d la = w.vm.lookup d la)) ∨
      (ret = -eNoMem ∧ (w'.mm i).areas = (w.mm i).areas ∧ w'.vm = w.vm)) := by
  obtain ⟨H, hns⟩ := h.unshared fun _ _ hop => hop
  have hcut : ¬ CutsShared w (.mmUnmap i addr len) := hns.not_cuts hi
  obtain ⟨ret, mm, vm, hrun, -, hres⟩ := H.mmUnmap hi addr len hcut hstart hstop
  have hret := H.mmUnmap_ret hi (by rw [← hstart, ← hstop]; exact hacc) hrun
  have hself : (w.set i mm vm).mm i = mm := set_mm_self ..
  refine ⟨ret, w.set i mm vm, ?_, rfl, fun j hj => Function.update_of_ne hj .., ?_⟩
  · simp only [World.step, getMm_mem hi, hrun, Res.ok_bind]
    rfl
  · rw [hself]
    rcases hres with ⟨hne, hareas, hvm⟩ | ⟨rfl, hareas, hun, -⟩
    · exact .inr ⟨hret.resolve_left hne, hareas, hvm⟩
    · obtain ⟨-, hlt, -⟩ := userAccess_iff.1 hacc
      refine .inl ⟨rfl, Mm.covers_pieces hlt hareas, ?_, ?_⟩
      · rintro la h1 h2 ⟨flags, a, ha, hhas, -⟩
        exact hun.cleared a ha la h1 h2 hhas
      · intro d la hout
        refine hun.other d (pdx la) (ptx la) fun a _ lb h1 h2 _ heq => hout ?_
        -- two addresses of one page are both in the range or both outside
        obtain ⟨hd, hpage⟩ := userSlot_inj.1 (show userSlot d la = userSlot i lb from heq)
        have h3 : start % pgSize = 0 := by rw [hstart]; exact roundDown_mod _ _
        have h4 : stop % pgSize = 0 := by rw [hstop]; exact roundUp_mod _ _
        rw [pgSize] at hpage h3 h4
        exact ⟨hd, by omega, by omega⟩

/-- A hole is cut into an area of four pages, one of which has been touched. -/
theorem mmUnmap_exact_hole : ∃ ops w w', Run (fun _ op => op.unshared = true) ops w ∧
    w.vm.lookup 0 0x401000 = ⟨6, true, ⟨true, true⟩⟩ ∧
    w.step (.mmUnmap 0 0x401010 0x1000) = .ok (.code 0, w') ∧ w'.vm.lookup 0 0x401000 = Pte.zero ∧
    w'.vm.lookup 0 0x403000 = w.vm.lookup 0 0x403000 ∧
    (∀ flags, ¬ (w'.mm 0).Covers flags 0x401000) ∧ (w'.mm 0).Covers { write := true } 0x403000 := by
  have h₀ : Run (fun _ op => op.unshared = true) [] World.init := .init
  have h₁ := h₀.step rfl
    (show World.init.step (.mmCreate [some 1, some 2]) = .ok (.code 0, _) from rfl)
  have h₂ := h₁.step rfl
    (show World.step _ (.supply [some 5, some 6] [] []) = .ok (.code 0, _) from rfl)
  have h₃ := h₂.step rfl
    (show World.step _ (.mmMap 0 0x400000 0x4000 { write := true }) = .ok (.code 0, _) from rfl)
  have h₄ := h₃.step rfl (show World.step _ (.pgfault 0 6 0x401123) = .ok (.code 0, _) from rfl)
  have hcov : ∀ mm : Mm, mm.areas = [⟨0x400000, 0x404000, { write := true }, none, 0⟩] → ∀ la,
      0x400000 ≤ la → la < 0x404000 → mm.Covers { write := true } la := by
    intro mm hmm la h1 h2
    exact ⟨_, by rw [hmm]; exact List.mem_singleton_self _, ⟨h1, h2⟩, rfl⟩
  obtain ⟨ret, w', hstep, -, -, hres⟩ :=
    mmUnmap_exact h₄ 0 0x401010 0x1000 (by decide) rfl rfl (by decide)
  have hret : ret = 0 := by
    cases (show World.step _ (.mmUnmap 0 0x401010 0x1000) =
      .ok (.code 0, _) from rfl).symm.trans hstep
    rfl
  subst hret
  rcases hres with ⟨-, hcovers, hclear, hsame⟩ | ⟨hret, -⟩
  · have h1 := hclear 0x401000 (by decide) (by decide) ⟨_, hcov _ rfl _ (by decide) (by decide)⟩
    have h3 := (hcovers _ 0x403000).2 ⟨hcov _ rfl _ (by decide) (by decide), by decide⟩
    exact ⟨_, _, w', h₄, rfl, hstep, h1, hsame 0 _ (by decide),
      fun flags hc => ((hcovers flags _).1 hc).2 (by decide), h3⟩
  · exact absurd hret (by decide)

end World

end Ucore
