import Ucore.Boot.Defs

/-!
# The two versions of `boot_map_segment`

Both versions map one page after the other, from the page of `la` on.  They differ in how they find
out that they are done.  The version for x86 rounds the number of pages up, with an addition that
overflows only if nearly all of the address space is to be mapped.  The version for ARM takes a page
off the number of bytes until it is 0, which never happens if this is not a multiple of the page
size, and is one page too early if `la` is not.  `bootMapSegments_iff` says when the two of them do
what they should.

* `mapLoop_spec` — the loop, for any counter: it maps as many pages as the counter says (`Mapped`),
  and each round sets the entry of one page (`entry_mapPage`).
* `MapsSegment` — what should be mapped: every byte of the segment, to its own place.
  `mapsSegment_of_mapped` and `not_mapsSegment` say that this needs the right number of pages.
* `bootMapSegment_iff` and `armBootMapSegment_iff` — for which arguments each of the versions has
  it. The number of bytes of the version for ARM passes 0 if it is no multiple of the page size
  (`armBootMapSegment_forever`).
-/

set_option autoImplicit false

namespace Ucore

namespace PageTables

variable {M : Mmu} {t t' : PageTables} {perm : ℕ}

theorem entry_getPte (M : Mmu) (la : ℕ) (t : PageTables) (b : ℕ) :
    (t.getPte M la).entry M b = t.entry M b := by
  rw [getPte]
  cases h : t (M.pdx la) with
  | some f => rfl
  | none =>
    dsimp only
    rw [entry, entry]
    by_cases hb : M.pdx b = M.pdx la
    · rw [hb, Function.update_self, h]
      rfl
    · rw [Function.update_of_ne hb]

theorem getPte_some (M : Mmu) (la : ℕ) (t : PageTables) :
    ∃ f, t.getPte M la (M.pdx la) = some f := by
  rw [getPte]
  cases h : t (M.pdx la) with
  | some f => exact ⟨f, h⟩
  | none => exact ⟨_, Function.update_self ..⟩

/-- **One round sets the entry of one page.** -/
theorem entry_mapPage {la b : ℕ} (hla : la < 2 ^ 32) (hb : b < 2 ^ 32) (pa : ℕ) :
    (t.mapPage M perm la pa).entry M b =
      if b / pgSize = la / pgSize then pa ||| M.pteP ||| perm else t.entry M b := by
  obtain ⟨f, hf⟩ := getPte_some M la t
  rw [mapPage, ← entry_getPte M la t b, setPte, hf, entry, entry]
  by_cases hd : M.pdx b = M.pdx la
  · rw [hd, Function.update_self, hf]
    simp only [Option.map_some, Option.elim_some]
    by_cases hx : M.ptx b = M.ptx la
    · rw [hx, Function.update_self, if_pos ((M.same b hb la hla).1 ⟨hd, hx⟩)]
    · rw [Function.update_of_ne hx, if_neg fun h => hx ((M.same b hb la hla).2 h).2]
  · rw [Function.update_of_ne hd, if_neg fun h => hd ((M.same b hb la hla).2 h).1]

/-- The `n` pages from the page `lp` on have been mapped to the frames from `pp` on. -/
def Mapped (M : Mmu) (perm lp pp n : ℕ) (t t' : PageTables) : Prop :=
  ∀ b < 2 ^ 32, t'.entry M b = if lp ≤ b / pgSize ∧ b / pgSize < lp + n then
    (pp + (b / pgSize - lp)) * pgSize ||| M.pteP ||| perm else t.entry M b

theorem Mapped.zero (M : Mmu) (perm lp pp : ℕ) (t : PageTables) : Mapped M perm lp pp 0 t t :=
  fun b _ => (if_neg (by omega)).symm

theorem Mapped.succ {lp pp n : ℕ} (h : Mapped M perm lp pp n t t') (hlp : lp + n < 2 ^ 20) :
    Mapped M perm lp pp (n + 1) t
      (t'.mapPage M perm ((lp + n) * pgSize) ((pp + n) * pgSize)) := by
  intro b hb
  have hdiv : (lp + n) * pgSize / pgSize = lp + n := Nat.mul_div_cancel _ (by decide)
  rw [entry_mapPage (by simp only [pgSize]; omega) hb, hdiv, h b hb]
  by_cases hn : b / pgSize = lp + n
  · rw [if_pos hn, if_pos (by omega), hn, Nat.add_sub_cancel_left]
  · rw [if_neg hn]
    exact if_congr (by omega) rfl rfl

end PageTables

open PageTables

/-- **The loop maps as many pages as its counter says.** -/
theorem mapLoop_spec (M : Mmu) (dec : ℕ → ℕ) (perm : ℕ) {lp pp n : ℕ} (cnt : ℕ → ℕ)
    (hpos : ∀ k < n, 0 < cnt k) (hdec : ∀ k < n, dec (cnt k) = cnt (k + 1)) (hend : cnt n = 0)
    (hlp : lp + n ≤ 2 ^ 20) (hpp : pp + n ≤ 2 ^ 20) (t : PageTables) :
    (∃ fuel t', mapLoop M dec perm fuel (cnt 0) (lp * pgSize) (pp * pgSize) t = .ok t') ∧
    ∀ fuel t', mapLoop M dec perm fuel (cnt 0) (lp * pgSize) (pp * pgSize) t = .ok t' →
      Mapped M perm lp pp n t t' := by
  obtain ⟨⟨c, la, pa, t'⟩, hrun, hmap⟩ := whileLoop_spec
    (c := fun st : ℕ × ℕ × ℕ × PageTables => decide (0 < st.1))
    (f := fun st => .ok (dec st.1, addrAdd st.2.1 pgSize, addrAdd st.2.2.1 pgSize,
      st.2.2.2.mapPage M perm st.2.1 st.2.2.1))
    (Q := fun st => Mapped M perm lp pp n t st.2.2.2)
    (s := (cnt 0, lp * pgSize, pp * pgSize, t)) (n := n)
    -- `k` pages have been mapped, and `m` are to come
    (fun m st => ∃ k, k + m = n ∧ st.1 = cnt k ∧ Mapped M perm lp pp k t st.2.2.2 ∧
      (k < n → st.2.1 = (lp + k) * pgSize ∧ st.2.2.1 = (pp + k) * pgSize))
    ⟨0, Nat.zero_add n, rfl, Mapped.zero M perm lp pp t, fun _ => ⟨rfl, rfl⟩⟩ le_rfl
    (by
      rintro m ⟨c, la, pa, t'⟩ ⟨k, hk, rfl, hmap, haddr⟩ hguard
      have hkn : k < n := by
        by_contra hge
        rw [show k = n by omega, hend] at hguard
        simp at hguard
      obtain ⟨rfl, rfl⟩ := haddr hkn
      refine ⟨_, m - 1, rfl, ⟨k + 1, by omega, hdec k hkn, hmap.succ (by omega), fun hlt => ?_⟩,
        by omega⟩
      simp only [addrAdd, pgSize]
      omega)
    (by
      rintro m ⟨c, la, pa, t'⟩ ⟨k, hk, rfl, hmap, -⟩ hguard
      have hkn : ¬ k < n := fun hlt => absurd (hpos k hlt) (by simpa using hguard)
      rw [show k = n by omega] at hmap
      exact hmap)
  refine ⟨⟨n, t', ?_⟩, fun fuel t₁ h₁ => ?_⟩
  · rw [mapLoop, hrun]
    rfl
  · obtain ⟨st, hst, heq⟩ := Res.bind_eq_ok.1 h₁
    have hsame := whileLoop_unique hst hrun
    subst hsame
    rw [← Except.ok.inj heq]
    exact hmap

/-! ## What they should do -/

/-- **The segment has been mapped**: the page of `la + i` to the frame of `pa + i`, for each `i`
below `size`, and no other page. -/
def MapsSegment (M : Mmu) (la size pa perm : ℕ) (t t' : PageTables) : Prop :=
  (∀ i < size, t'.entry M (la + i) = roundDown (pa + i) pgSize ||| M.pteP ||| perm) ∧
  ∀ b < 2 ^ 32, (∀ i < size, (la + i) / pgSize ≠ b / pgSize) → t'.entry M b = t.entry M b

section Segment

variable {M : Mmu} {la size pa perm : ℕ} {t t' : PageTables}

/-- The number of pages has to be right. -/
theorem mapsSegment_of_mapped (hoff : la % pgSize = pa % pgSize) (hsize : 0 < size)
    (hla : la + size < 2 ^ 32) {n : ℕ}
    (hn : la / pgSize + n = (la + size - 1) / pgSize + 1)
    (h : Mapped M perm (la / pgSize) (pa / pgSize) n t t') :
    MapsSegment M la size pa perm t t' := by
  refine ⟨fun i hi => ?_, fun b hb hout => ?_⟩
  · have hpage : la / pgSize ≤ (la + i) / pgSize ∧ (la + i) / pgSize < la / pgSize + n := by
      simp only [pgSize] at *
      omega
    have hframe : (pa / pgSize + ((la + i) / pgSize - la / pgSize)) * pgSize =
        roundDown (pa + i) pgSize := by
      simp only [roundDown, pgSize] at *
      omega
    rw [h (la + i) (by omega), if_pos hpage, hframe]
  · rw [h b hb, if_neg]
    rintro ⟨hlo, hhi⟩
    refine hout (b / pgSize * pgSize - la) ?_ ?_
    · simp only [pgSize] at *
      omega
    · simp only [pgSize] at *
      omega

/-- A page that is missing is missed. -/
theorem not_mapsSegment (hsize : 0 < size) (hla : la + size < 2 ^ 32) {n : ℕ}
    (hn : la / pgSize + n ≤ (la + size - 1) / pgSize)
    (h : Mapped M perm (la / pgSize) (pa / pgSize) n (fun _ => none) t') :
    ¬ MapsSegment M la size pa perm (fun _ => none) t' := by
  rintro ⟨hin, -⟩
  have hlast : la + (size - 1) = la + size - 1 := by omega
  have h1 := hin (size - 1) (by omega)
  rw [hlast, h (la + size - 1) (by omega), if_neg (by omega)] at h1
  have h2 : M.pteP = 0 := by
    have h3 := (Nat.or_eq_zero_iff.1 h1.symm).1
    exact (Nat.or_eq_zero_iff.1 h3).2
  exact M.pteP_ne h2

theorem roundDown_eq_mul (a : ℕ) : roundDown a pgSize = a / pgSize * pgSize := by
  simp only [roundDown, pgSize]
  omega

/-- x86. -/
theorem bootMapSegment_mapped (hoff : la % pgSize = pa % pgSize) (hla : la + size < 2 ^ 32)
    (hpa : pa + size < 2 ^ 32) (perm : ℕ) (t : PageTables) :
    (∃ fuel t', bootMapSegment fuel t la size pa perm = .ok t') ∧
    ∀ fuel t', bootMapSegment fuel t la size pa perm = .ok t' →
      Mapped x86Mmu perm (la / pgSize) (pa / pgSize)
        (roundUp (addrAdd size (la % pgSize)) pgSize / pgSize) t t' := by
  set n := roundUp (addrAdd size (la % pgSize)) pgSize / pgSize with hn
  have hle : la / pgSize + n ≤ 2 ^ 20 ∧ pa / pgSize + n ≤ 2 ^ 20 := by
    simp only [roundUp, roundDown, addrAdd, pgSize] at *
    omega
  simp only [bootMapSegment, assert_pos hoff, Res.ok_bind, roundDown_eq_mul]
  exact mapLoop_spec x86Mmu (fun n => n - 1) perm (fun k => n - k) (fun k hk => by omega)
    (fun k hk => by omega) (Nat.sub_self n) hle.1 hle.2 t

/-- ARM, if the number of bytes is a multiple of the page size. -/
theorem armBootMapSegment_mapped (hoff : la % pgSize = pa % pgSize) (hla : la + size < 2 ^ 32)
    (hpa : pa + size < 2 ^ 32) (hmod : size % pgSize = 0) (perm : ℕ) (t : PageTables) :
    (∃ fuel t', armBootMapSegment fuel t la size pa perm = .ok t') ∧
    ∀ fuel t', armBootMapSegment fuel t la size pa perm = .ok t' →
      Mapped armMmu perm (la / pgSize) (pa / pgSize) (size / pgSize) t t' := by
  have hle : la / pgSize + size / pgSize ≤ 2 ^ 20 ∧ pa / pgSize + size / pgSize ≤ 2 ^ 20 := by
    simp only [pgSize] at *
    omega
  simp only [armBootMapSegment, assert_pos hoff, Res.ok_bind, roundDown_eq_mul]
  exact mapLoop_spec armMmu (fun size => (size + (2 ^ 32 - pgSize)) % 2 ^ 32) perm
    (fun k => size - k * pgSize) (fun k hk => by simp only [pgSize] at *; omega)
    (fun k hk => by simp only [pgSize] at *; omega) (by simp only [pgSize] at *; omega)
    hle.1 hle.2 t

/-- ARM, otherwise: the number of bytes is never 0. -/
theorem armBootMapSegment_forever (hoff : la % pgSize = pa % pgSize) (hmod : size % pgSize ≠ 0)
    (perm fuel : ℕ) (t : PageTables) :
    armBootMapSegment fuel t la size pa perm = .error .fuel := by
  have hloop := whileLoop_forever
    (c := fun st : ℕ × ℕ × ℕ × PageTables => decide (0 < st.1))
    (f := fun st => .ok ((st.1 + (2 ^ 32 - pgSize)) % 2 ^ 32, addrAdd st.2.1 pgSize,
      addrAdd st.2.2.1 pgSize, st.2.2.2.mapPage armMmu perm st.2.1 st.2.2.1))
    (s := (size, roundDown la pgSize, roundDown pa pgSize, t)) (fun st => st.1 % pgSize ≠ 0)
    (by
      rintro ⟨c, la, pa, t⟩ hc
      refine ⟨decide_eq_true ?_, _, rfl, ?_⟩
      · simp only [pgSize] at *
        omega
      · simp only [pgSize] at *
        omega)
    fuel hmod
  rw [armBootMapSegment, assert_pos hoff, Res.ok_bind, mapLoop, hloop]
  rfl

/-- The number of pages that the version for x86 maps is the right one, or 0. -/
theorem pageCount_cases (hsize : 0 < size) (hla : la + size < 2 ^ 32) :
    (la / pgSize = 0 ∧ (la + size - 1) / pgSize = 2 ^ 20 - 1 ∧
      roundUp (addrAdd size (la % pgSize)) pgSize / pgSize = 0) ∨
    (¬ (la / pgSize = 0 ∧ (la + size - 1) / pgSize = 2 ^ 20 - 1) ∧
      la / pgSize + roundUp (addrAdd size (la % pgSize)) pgSize / pgSize =
        (la + size - 1) / pgSize + 1) := by
  have hadd : addrAdd size (la % pgSize) = size + la % pgSize := by
    simp only [addrAdd, pgSize]
    omega
  rw [hadd]
  by_cases hbig : size + la % pgSize + (pgSize - 1) < 2 ^ 32
  · right
    simp only [roundUp, roundDown, addrAdd, pgSize] at *
    omega
  · left
    simp only [roundUp, roundDown, addrAdd, pgSize] at *
    omega

/-- **When x86 maps the segment**: always, unless this is all of the address space. -/
theorem bootMapSegment_iff (hoff : la % pgSize = pa % pgSize) (hsize : 0 < size)
    (hla : la + size < 2 ^ 32) (hpa : pa + size < 2 ^ 32) (perm : ℕ) :
    (∀ t, ∃ fuel t', bootMapSegment fuel t la size pa perm = .ok t' ∧
        MapsSegment x86Mmu la size pa perm t t') ↔
      ¬ (la / pgSize = 0 ∧ (la + size - 1) / pgSize = 2 ^ 20 - 1) := by
  rcases pageCount_cases hsize hla with ⟨hzero, hlast, hn⟩ | ⟨hnot, hn⟩
  · refine iff_of_false (fun h => ?_) fun h => h ⟨hzero, hlast⟩
    obtain ⟨fuel, t', hrun, hmaps⟩ := h fun _ => none
    have hmap := (bootMapSegment_mapped hoff hla hpa perm _).2 fuel t' hrun
    exact not_mapsSegment hsize hla (by omega) hmap hmaps
  · refine iff_of_true (fun t => ?_) hnot
    obtain ⟨⟨fuel, t', hrun⟩, hmap⟩ := bootMapSegment_mapped hoff hla hpa perm t
    exact ⟨fuel, t', hrun, mapsSegment_of_mapped hoff hsize hla hn (hmap fuel t' hrun)⟩

/-- **When ARM maps the segment**: if it consists of whole pages. -/
theorem armBootMapSegment_iff (hoff : la % pgSize = pa % pgSize) (hsize : 0 < size)
    (hla : la + size < 2 ^ 32) (hpa : pa + size < 2 ^ 32) (perm : ℕ) :
    (∀ t, ∃ fuel t', armBootMapSegment fuel t la size pa perm = .ok t' ∧
        MapsSegment armMmu la size pa perm t t') ↔
      la % pgSize = 0 ∧ size % pgSize = 0 := by
  constructor
  · intro h
    obtain ⟨fuel, t', hrun, hmaps⟩ := h fun _ => none
    have hmod : size % pgSize = 0 := by
      by_contra hmod
      rw [armBootMapSegment_forever hoff hmod] at hrun
      cases hrun
    refine ⟨?_, hmod⟩
    -- otherwise the page of the last byte is the one behind those that were mapped
    by_contra hne
    have hmap := (armBootMapSegment_mapped hoff hla hpa hmod perm _).2 fuel t' hrun
    refine not_mapsSegment hsize hla ?_ hmap hmaps
    simp only [pgSize] at *
    omega
  · rintro ⟨haligned, hmod⟩ t
    obtain ⟨⟨fuel, t', hrun⟩, hmap⟩ := armBootMapSegment_mapped hoff hla hpa hmod perm t
    refine ⟨fuel, t', hrun, mapsSegment_of_mapped hoff hsize hla ?_ (hmap fuel t' hrun)⟩
    simp only [pgSize] at *
    omega

end Segment

/-- **When the two versions of `boot_map_segment` implement the same mapping.**  Both map exactly
the pages of the segment, whatever is mapped already, if and only if the address and the size are
multiples of the page size.  The version for x86 alone does in all cases but one, in which the
segment has a part in every page of the address space. -/
theorem bootMapSegments_iff (la size pa perm : ℕ) (hoff : la % pgSize = pa % pgSize)
    (hsize : 0 < size) (hla : la + size < 2 ^ 32) (hpa : pa + size < 2 ^ 32) :
    ((∀ t, (∃ fuel t', armBootMapSegment fuel t la size pa perm = .ok t' ∧
          MapsSegment armMmu la size pa perm t t') ∧
        ∃ fuel t', bootMapSegment fuel t la size pa perm = .ok t' ∧
          MapsSegment x86Mmu la size pa perm t t') ↔
      la % pgSize = 0 ∧ size % pgSize = 0) ∧
    ((∀ t, ∃ fuel t', bootMapSegment fuel t la size pa perm = .ok t' ∧
        MapsSegment x86Mmu la size pa perm t t') ↔
      ¬ (la / pgSize = 0 ∧ (la + size - 1) / pgSize = 2 ^ 20 - 1)) := by
  have harm := armBootMapSegment_iff hoff hsize hla hpa perm
  have hx86 := bootMapSegment_iff hoff hsize hla hpa perm
  refine ⟨?_, hx86⟩
  rw [forall_and, harm, hx86, and_iff_left_iff_imp]
  rintro ⟨haligned, hmod⟩
  -- the segment ends at a page, and not at the last one
  simp only [pgSize] at *
  omega

/-- Two pages of the kernel. -/
theorem bootMapSegments_iff_kernel :
    0xC0000000 % pgSize = 0 % pgSize ∧ 0 < 0x2000 ∧
    ((∀ t, (∃ fuel t', armBootMapSegment fuel t 0xC0000000 0x2000 0 2 = .ok t' ∧
          MapsSegment armMmu 0xC0000000 0x2000 0 2 t t') ∧
        ∃ fuel t', bootMapSegment fuel t 0xC0000000 0x2000 0 2 = .ok t' ∧
          MapsSegment x86Mmu 0xC0000000 0x2000 0 2 t t') ↔
      0xC0000000 % pgSize = 0 ∧ 0x2000 % pgSize = 0) :=
  ⟨by decide, by decide,
    (bootMapSegments_iff 0xC0000000 0x2000 0 2 (by decide) (by decide) (by decide) (by decide)).1⟩

/-- The first byte of the kernel: the version for x86 maps its page, and the one for ARM does not
return. -/
theorem armBootMapSegment_no_result :
    0xC0000000 % pgSize = 0 % pgSize ∧ 0 < 1 ∧ 0xC0000000 + 1 < 2 ^ 32 ∧ 0 + 1 < 2 ^ 32 ∧
    (∀ t, ∃ fuel t', bootMapSegment fuel t 0xC0000000 1 0 2 = .ok t' ∧
      MapsSegment x86Mmu 0xC0000000 1 0 2 t t') ∧
    ∀ t, ¬ ∃ fuel t', armBootMapSegment fuel t 0xC0000000 1 0 2 = .ok t' := by
  refine ⟨by decide, by decide, by decide, by decide, ?_, ?_⟩
  · exact (bootMapSegment_iff (by decide) (by decide) (by decide) (by decide) 2).2 (by decide)
  · rintro t ⟨fuel, t', hrun⟩
    rw [armBootMapSegment_forever (by decide) (by decide)] at hrun
    cases hrun

end Ucore
