import Ucore.Buddy.Inv
import Ucore.Buddy.Split

/-!
# Freeing pages

`buddyFreePages` cuts the range it is given into aligned blocks (`freePagesWith_eq`), and
`buddyFreePagesSub` frees one of them and merges it with its buddy for as long as the buddy is free.

While a block is merged it is on no list, so in the sense of `Buddy.Inv` its pages are allocated.
The invariant of the merging loop is therefore `Inv` for the pages that stay allocated together with
the block merged so far (`Merging`).

* `Zone.Fits.merge` is the arithmetic of one round: a block and its buddy are a block of the next
  order, which begins at the one of the two that comes first.
* `Inv.onList_of_pageIsBuddy` says that a page which passes the test of `page_is_buddy` really is
  the start of a free block of the same zone.  The test reads a descriptor that may belong to
  another zone or to none, so this is not obvious: the flag, the order and the number of the zone
  decide.
* `Merging.step` is a round, `mergeBuddies_spec` the loop.  It ends when the buddy is not free or
  the block has the largest order, which is why there are no two free buddies in the end
  (`Merging.coalesced`).
* `buddyFreePagesSub_spec` is the function, with the loop that clears the descriptors in front
  (`clearPages_spec`).

`Freeing` is the state of the loops of `buddy_free_pages`: the rest of the range is still allocated.
One call shortens it (`Freeing.sub`), and `buddyFreePages_spec` is the result.
-/

set_option autoImplicit false

namespace Ucore

/-! ## The arithmetic of one merge -/

/-- **Two buddies that both fit make a block that fits.** -/
theorem Zone.Fits.merge {z : Zone} {idx k : ℕ} (h : z.Fits (z.base + idx) k)
    (hb : z.Fits (z.base + (idx ^^^ 2 ^ k)) k) :
    z.Fits (z.base + (idx &&& (idx ^^^ 2 ^ k))) (k + 1) ∧
      block (z.base + (idx &&& (idx ^^^ 2 ^ k))) (k + 1) =
        block (z.base + idx) k ∪ block (z.base + (idx ^^^ 2 ^ k)) k := by
  have hal : idx % 2 ^ k = 0 := by
    have h1 := h.aligned
    rwa [Nat.add_sub_cancel_left] at h1
  rcases mod_two_pow_succ hal with hlow | hup
  · obtain ⟨hxor, hand⟩ := xor_two_pow_lower hlow
    have hend := hb.le_end
    rw [hxor] at hend
    rw [hand, hxor, ← Nat.add_assoc, ← block_succ]
    refine ⟨⟨Nat.le_add_right _ _, ?_, ?_⟩, rfl⟩
    · rwa [Nat.add_sub_cancel_left]
    · rw [pow_succ]
      omega
  · obtain ⟨hxor, hand⟩ := xor_two_pow_upper hup
    have hle : 2 ^ k ≤ idx := hup ▸ Nat.mod_le idx _
    have hend := h.le_end
    have hidx : idx - 2 ^ k + 2 ^ k = idx := Nat.sub_add_cancel hle
    rw [hand, hxor]
    refine ⟨⟨Nat.le_add_right _ _, ?_, ?_⟩, ?_⟩
    · rw [Nat.add_sub_cancel_left]
      have h1 : (idx - 2 ^ k + 2 ^ k) % 2 ^ (k + 1) = 2 ^ k := by rw [hidx, hup]
      have h2 : idx - 2 ^ k = 2 ^ (k + 1) * (idx / 2 ^ (k + 1)) := by
        have h3 := Nat.div_add_mod idx (2 ^ (k + 1))
        omega
      rw [h2, Nat.mul_mod_right]
    · rw [pow_succ]
      omega
    · rw [block_succ, Nat.add_assoc, hidx, Finset.union_comm]

namespace Buddy.Inv

variable {npage : ℕ} {zs : List Zone} {A : Finset ℕ} {s : Buddy}

/-! ## Reading the zone of a page -/

theorem page2idx_eq (H : s.Inv npage zs A) {i : ℕ} {z : Zone} (hz : zs[i]? = some z) {p : ℕ}
    (hp : p ∈ z.pages) : page2idx s p = p - z.base := by
  rw [page2idx, (H.inZone i z hz p hp).1, H.memBase i z hz]

theorem idx2page_eq (H : s.Inv npage zs A) {i : ℕ} {z : Zone} (hz : zs[i]? = some z) (idx : ℕ) :
    idx2page s i idx = z.base + idx := by
  rw [idx2page, H.memBase i z hz]

/-- A free block lies in the zone that its first page names. -/
theorem fits_of_onList (H : s.Inv npage zs A) {i : ℕ} {z : Zone} (hz : zs[i]? = some z) {p k : ℕ}
    (hp : p ∈ z.pages) (hon : s.OnList k p) : z.Fits p k := by
  obtain ⟨-, -, w, hw, hfit⟩ := H.free k p hon
  obtain ⟨j, hj⟩ := List.mem_iff_getElem?.1 hw
  have hij : i = j := H.zone_unique hz hj hp (hfit.subset (left_mem_block p k))
  subst hij
  rw [hz, Option.some_inj] at hj
  rwa [hj]

/-- **The test of `page_is_buddy` is right**, although it reads descriptors that may belong to no
zone, and a `property` that may be stale: the page is the first one of a free block. -/
theorem onList_of_pageIsBuddy (H : s.Inv npage zs A) {i : ℕ} {z : Zone} (hz : zs[i]? = some z)
    {p k : ℕ} (h : pageIsBuddy npage s p k i = true) : s.OnList k p ∧ z.Fits p k := by
  rw [pageIsBuddy] at h
  split at h
  case isFalse => exact absurd h (by simp)
  case isTrue hlt =>
    split at h
    case isFalse => exact absurd h (by simp)
    case isTrue hnum =>
      simp only [Bool.and_eq_true, Bool.not_eq_true', beq_iff_eq] at h
      obtain ⟨⟨hres, hprop⟩, hk⟩ := h
      have hzone : ∃ w ∈ zs, p ∈ w.pages := by
        by_contra hno
        push Not at hno
        have := H.outside p hlt hno
        rw [hres] at this
        exact absurd this (by simp)
      obtain ⟨w, hw, hpw⟩ := hzone
      obtain ⟨j, hj⟩ := List.mem_iff_getElem?.1 hw
      have hij : i = j := hnum.symm.trans (H.inZone j w hj p hpw).1
      subst hij
      rw [hz, Option.some_inj] at hj
      subst hj
      obtain ⟨j, hon⟩ := H.flagged z hw p hpw hprop
      have hjk : j = k := (H.free j p hon).2.1.symm.trans hk
      subst hjk
      exact ⟨hon, H.fits_of_onList hz hpw hon⟩

/-! ## Clearing the descriptors -/

/-- The first loop of `buddy_free_pages_sub`: its assertions hold on allocated pages. -/
theorem clearPages_spec (H : s.Inv npage zs A) (n p : ℕ) (hsub : Finset.Ico p (p + n) ⊆ A) :
    ∃ s', clearPages s p n = .ok s' ∧ s'.Inv npage zs A ∧
      (∀ x, (s.page x).ref = 0 ∨ x ∈ Finset.Ico p (p + n) → (s'.page x).ref = 0) ∧
      s'.freeArea = s.freeArea := by
  induction n generalizing s p with
  | zero =>
    refine ⟨s, rfl, H, ?_, rfl⟩
    rintro x (hx | hx)
    · exact hx
    · simp at hx
  | succ n ih =>
    have hpA : p ∈ A := hsub (Finset.mem_Ico.2 ⟨le_rfl, by omega⟩)
    obtain ⟨z, hz, hpz⟩ := H.alloc p hpA
    have hassert : (s.page p).flags.reserved = false ∧ (s.page p).flags.property = false :=
      ⟨H.reserved_of_mem hz hpz, H.property_of_alloc hpA⟩
    have htouch : (s.setPage p fun pg => { pg with flags := {}, ref := 0 }).Inv npage zs A := by
      refine H.touch rfl rfl rfl ?_ ?_
      · intro x hx
        have hne : x ≠ p := fun h => hx (h ▸ hpA)
        exact Function.update_of_ne hne _ _
      · intro x hx
        by_cases hxp : x = p
        · subst hxp
          simp [Buddy.setPage]
        · obtain ⟨w, hw, hxw⟩ := H.alloc x hx
          simp [Buddy.setPage, hxp, H.reserved_of_mem hw hxw, H.property_of_alloc hx]
    obtain ⟨s', hs', H', href, harea⟩ := ih htouch (p + 1) fun x hx => hsub (by
      rw [Finset.mem_Ico] at hx ⊢
      omega)
    refine ⟨s', ?_, H', ?_, harea⟩
    · rw [clearPages, assert_pos hassert, Res.ok_bind, hs']
    · intro x hx
      apply href
      by_cases hxp : x = p
      · subst hxp
        exact .inl (by simp [Buddy.setPage])
      · rcases hx with hx | hx
        · exact .inl (by simpa [Buddy.setPage, hxp] using hx)
        · refine .inr ?_
          rw [Finset.mem_Ico] at hx ⊢
          omega

/-! ## Merging -/

theorem removeBlock_ref (s : Buddy) (p k x : ℕ) :
    ((s.removeBlock p k).page x).ref = (s.page x).ref := by
  rw [Buddy.removeBlock_page]
  by_cases hx : x = p
  · subst hx
    rw [Function.update_self]
  · rw [Function.update_of_ne hx]

/-- The invariant of the merging loop: the block merged so far, of order `st.2.2` at index
`st.2.1`, is the only one that is neither free nor in `C`. -/
structure Merging (npage : ℕ) (zs : List Zone) (C : Finset ℕ) (z : Zone) (st : Buddy × ℕ × ℕ) :
    Prop where
  inv : st.1.Inv npage zs (C ∪ block (z.base + st.2.1) st.2.2)
  fits : z.Fits (z.base + st.2.1) st.2.2
  order : st.2.2 ≤ maxOrder
  disj : ∀ x ∈ block (z.base + st.2.1) st.2.2, x ∉ C
  ref : ∀ x ∈ block (z.base + st.2.1) st.2.2, (st.1.page x).ref = 0

/-- One round of the merging loop. -/
theorem Merging.step {C : Finset ℕ} {i : ℕ} {z : Zone} {idx k : ℕ} (hz : zs[i]? = some z)
    (M : Merging npage zs C z (s, idx, k)) (hk : k < maxOrder)
    (h : pageIsBuddy npage s (z.base + (idx ^^^ 2 ^ k)) k i = true) :
    Merging npage zs C z (s.removeBlock (z.base + (idx ^^^ 2 ^ k)) k,
      idx &&& (idx ^^^ 2 ^ k), k + 1) := by
  obtain ⟨hon, hfit⟩ := M.inv.onList_of_pageIsBuddy hz h
  obtain ⟨hfit', hblock⟩ := M.fits.merge hfit
  obtain ⟨H', href⟩ := M.inv.remove hon
  refine ⟨?_, hfit', hk, ?_, ?_⟩
  · show (s.removeBlock _ k).Inv npage zs (C ∪ block _ (k + 1))
    rw [hblock, ← Finset.union_assoc]
    exact H'
  · show ∀ x ∈ block _ (k + 1), x ∉ C
    rw [hblock]
    intro x hx
    rcases Finset.mem_union.1 hx with hx | hx
    · exact M.disj x hx
    · exact fun hC => M.inv.onList_not_mem hon hx (Finset.mem_union_left _ hC)
  · show ∀ x ∈ block _ (k + 1), ((s.removeBlock _ k).page x).ref = 0
    rw [hblock]
    intro x hx
    rcases Finset.mem_union.1 hx with hx | hx
    · rw [removeBlock_ref]
      exact M.ref x hx
    · exact href x hx

/-- The merging loop ends when the buddy is not free. -/
theorem mergeBuddies_spec {C : Finset ℕ} {i : ℕ} {z : Zone} (hz : zs[i]? = some z)
    {st : Buddy × ℕ × ℕ} (M : Merging npage zs C z st) :
    ∃ st', mergeBuddies npage i st = .ok st' ∧ Merging npage zs C z st' ∧
      (∀ j q, st'.1.OnList j q → st.1.OnList j q) ∧
      (st'.2.2 < maxOrder →
        pageIsBuddy npage st'.1 (z.base + (st'.2.1 ^^^ 2 ^ st'.2.2)) st'.2.2 i = false) := by
  refine whileLoop_spec (fun n st' => n = maxOrder - st'.2.2 ∧ Merging npage zs C z st' ∧
      ∀ j q, st'.1.OnList j q → st.1.OnList j q) ⟨rfl, M, fun _ _ h => h⟩ (Nat.sub_le _ _) ?_ ?_
  · rintro n ⟨s, idx, k⟩ ⟨rfl, M, hsub⟩ hc
    rw [Bool.and_eq_true, decide_eq_true_eq] at hc
    obtain ⟨hk, hbuddy⟩ := hc
    have hidx := M.inv.idx2page_eq hz (idx ^^^ 2 ^ k)
    simp only [hidx] at hk hbuddy ⊢
    refine ⟨_, _, rfl, ⟨rfl, M.step hz hk hbuddy, fun j q hq => ?_⟩, by simp only; omega⟩
    exact hsub j q (M.inv.removeBlock_onList.1 hq).1
  · rintro n ⟨s, idx, k⟩ ⟨-, M, hsub⟩ hc
    refine ⟨M, hsub, fun hk => ?_⟩
    have hk' : k < maxOrder := hk
    rw [decide_eq_true hk', Bool.true_and, M.inv.idx2page_eq hz] at hc
    exact hc

/-- A page that fails the test of `page_is_buddy` does not start a free block of the zone. -/
theorem not_onList_of_pageIsBuddy (H : s.Inv npage zs A) (harray : InArray npage zs) {i : ℕ}
    {z : Zone}
    (hz : zs[i]? = some z) {p k : ℕ} (hp : p ∈ z.pages) (h : pageIsBuddy npage s p k i = false) :
    ¬ s.OnList k p := by
  intro hon
  obtain ⟨hflag, hprop, -⟩ := H.free k p hon
  obtain ⟨hnum, hres⟩ := H.inZone i z hz p hp
  have hlt : p < npage := (Zone.mem_pages.1 hp).2.trans_le (harray z (List.mem_of_getElem? hz))
  rw [pageIsBuddy, if_pos hlt, if_pos hnum, hres, hflag, hprop] at h
  simp at h

/-- The block that has been merged may be put on its list. -/
theorem Merging.coalesced {C : Finset ℕ} {i : ℕ} {z : Zone} {idx k : ℕ} (hz : zs[i]? = some z)
    (M : Merging npage zs C z (s, idx, k)) (harray : InArray npage zs) (hs : s.Coalesced zs)
    (h : k < maxOrder → pageIsBuddy npage s (z.base + (idx ^^^ 2 ^ k)) k i = false) :
    (s.addBlock (z.base + idx) k).Coalesced zs := by
  have hpow := Nat.two_pow_pos k
  refine M.inv.coalesced_add hs M.order (List.mem_of_getElem? hz) M.fits fun hk q hq => ?_
  have hbuddy : q = z.base + (idx ^^^ 2 ^ k) ∧ q ∈ z.pages := by
    rcases hq with ⟨hfit, rfl⟩ | ⟨hfit, hidx⟩
    · have hal := hfit.aligned
      rw [Nat.add_sub_cancel_left] at hal
      refine ⟨by rw [(xor_two_pow_lower hal).1, Nat.add_assoc], hfit.subset ?_⟩
      rw [mem_block, pow_succ]
      omega
    · have hbase := hfit.base_le
      have hal : (idx - 2 ^ k) % 2 ^ (k + 1) = 0 := by
        rw [show idx - 2 ^ k = q - z.base by omega]
        exact hfit.aligned
      have hup : idx % 2 ^ (k + 1) = 2 ^ k := by
        have hlt : 2 ^ k < 2 ^ (k + 1) := Nat.pow_lt_pow_right (by omega) (by omega)
        rw [show idx = (idx - 2 ^ k) + 2 ^ k by omega, Nat.add_mod, hal, Nat.zero_add, Nat.mod_mod,
          Nat.mod_eq_of_lt hlt]
      refine ⟨?_, hfit.subset (left_mem_block q (k + 1))⟩
      rw [(xor_two_pow_upper hup).1]
      omega
  exact M.inv.not_onList_of_pageIsBuddy harray hz hbuddy.2 (hbuddy.1 ▸ h hk)

/-- **`buddy_free_pages_sub` frees one aligned block of allocated pages.** -/
theorem buddyFreePagesSub_spec (H : s.Inv npage zs A) {z : Zone} (hz : z ∈ zs) {base order : ℕ}
    (hfit : z.Fits base order) (horder : order ≤ maxOrder) (hsub : block base order ⊆ A) :
    ∃ s', buddyFreePagesSub npage s base order = .ok s' ∧
      s'.Inv npage zs (A \ block base order) ∧ KeepsCoalesced npage zs s s' := by
  obtain ⟨i, hi⟩ := List.mem_iff_getElem?.1 hz
  have hmem : base ∈ z.pages := hfit.subset (left_mem_block base order)
  have hidx : page2idx s base = base - z.base := H.page2idx_eq hi hmem
  have hassert : page2idx s base &&& (2 ^ order - 1) = 0 := by
    rw [hidx, Nat.and_two_pow_sub_one_eq_mod, hfit.aligned]
  obtain ⟨s₁, hclear, H₁, href, harea⟩ := H.clearPages_spec (2 ^ order) base hsub
  have hzone : (s₁.page base).zoneNum = i := (H₁.inZone i z hi base hmem).1
  have hbase : z.base + (base - z.base) = base := Nat.add_sub_cancel' hfit.base_le
  have hM : Merging npage zs (A \ block base order) z (s₁, base - z.base, order) := by
    refine ⟨?_, ?_, horder, ?_, ?_⟩
    · show s₁.Inv npage zs (A \ block base order ∪ block (z.base + (base - z.base)) order)
      rw [hbase, Finset.sdiff_union_of_subset hsub]
      exact H₁
    · show z.Fits (z.base + (base - z.base)) order
      rwa [hbase]
    · show ∀ x ∈ block (z.base + (base - z.base)) order, _
      rw [hbase]
      exact fun x hx hC => (Finset.mem_sdiff.1 hC).2 hx
    · show ∀ x ∈ block (z.base + (base - z.base)) order, _
      rw [hbase]
      exact fun x hx => href x (.inr hx)
  obtain ⟨⟨s₂, idx, k⟩, hmerge, M, hsub', hend⟩ := mergeBuddies_spec hi hM
  refine ⟨s₂.addBlock (idx2page s₂ i idx) k, ?_, ?_, fun harray hs => ?_⟩
  · rw [buddyFreePagesSub, assert_pos hassert, Res.ok_bind, hclear, Res.ok_bind]
    simp only [hidx, hzone, hmerge, Res.ok_bind, Res.pure_eq]
  · rw [M.inv.idx2page_eq hi]
    have hadd := M.inv.add M.order hz M.fits Finset.subset_union_right M.ref
    rwa [Finset.union_sdiff_cancel_right (Finset.disjoint_right.2 M.disj)] at hadd
  · rw [M.inv.idx2page_eq hi]
    refine M.coalesced hi harray (hs.mono fun j q hq => ?_) hend
    have hq' := hsub' j q hq
    rwa [OnList, harea] at hq'

/-! ## Cutting a range into blocks -/

/-- The state of the loops of `buddy_free_pages` on the allocator, `base`, `n` and `order`: the
pages from `base₀` up to `base` have been freed, and `base` is aligned for `order`. -/
structure Freeing (npage : ℕ) (zs : List Zone) (A : Finset ℕ) (z : Zone) (base₀ n₀ : ℕ)
    (st : Buddy × ℕ × ℕ × ℕ) : Prop where
  inv : st.1.Inv npage zs (A \ Finset.Ico base₀ st.2.1)
  le : base₀ ≤ st.2.1
  total : st.2.1 + st.2.2.1 = base₀ + n₀
  aligned : (st.2.1 - z.base) % 2 ^ st.2.2.2 = 0

section

variable {z : Zone} {base₀ n₀ : ℕ}

/-- What a caller of `buddy_free_pages` has to see to. -/
structure FreeArgs (zs : List Zone) (A : Finset ℕ) (z : Zone) (base₀ n₀ : ℕ) : Prop where
  mem : z ∈ zs
  base_le : z.base ≤ base₀
  le_end : base₀ + n₀ ≤ z.base + z.len
  sub : Finset.Ico base₀ (base₀ + n₀) ⊆ A
  lt : n₀ < 2 ^ (maxOrder + 1)

theorem Freeing.order_le (hargs : FreeArgs zs A z base₀ n₀) {base n order : ℕ}
    (F : Freeing npage zs A z base₀ n₀ (s, base, n, order)) (hn : 2 ^ order ≤ n) :
    order ≤ maxOrder := by
  have hle := F.le
  have htotal := F.total
  have hlt : 2 ^ order < 2 ^ (maxOrder + 1) := by
    have hargs_lt := hargs.lt
    simp only at hle htotal
    omega
  exact Nat.lt_succ_iff.1 ((Nat.pow_lt_pow_iff_right (by omega)).1 hlt)

/-- Freeing the block at the front of the rest. -/
theorem Freeing.sub (hargs : FreeArgs zs A z base₀ n₀) {base n order : ℕ}
    (F : Freeing npage zs A z base₀ n₀ (s, base, n, order)) (hn : 2 ^ order ≤ n) :
    ∃ s', buddyFreePagesSub npage s base order = .ok s' ∧
      s'.Inv npage zs (A \ Finset.Ico base₀ (base + 2 ^ order)) ∧ KeepsCoalesced npage zs s s' := by
  have hle : base₀ ≤ base := F.le
  have htotal : base + n = base₀ + n₀ := F.total
  have hend := hargs.le_end
  have hbase := hargs.base_le
  have hsub : block base order ⊆ A \ Finset.Ico base₀ base := by
    intro x hx
    rw [mem_block] at hx
    rw [Finset.mem_sdiff, Finset.mem_Ico]
    exact ⟨hargs.sub (Finset.mem_Ico.2 ⟨by omega, by omega⟩), by omega⟩
  obtain ⟨s', hs', H', hkeep⟩ := F.inv.buddyFreePagesSub_spec hargs.mem
    ⟨hbase.trans hle, F.aligned, by simp only; omega⟩ (F.order_le hargs hn) hsub
  refine ⟨s', hs', ?_, hkeep⟩
  have hset : A \ Finset.Ico base₀ (base + 2 ^ order) =
      (A \ Finset.Ico base₀ base) \ block base order := by
    rw [sdiff_sdiff_left, block, Finset.sup_eq_union,
      Finset.Ico_union_Ico_eq_Ico hle (Nat.le_add_right _ _)]
  rwa [hset]

/-- Freeing all of the rest, block by block. -/
theorem Freeing.perform (hargs : FreeArgs zs A z base₀ n₀) {calls : List (ℕ × ℕ)} {i n : ℕ}
    (F : Freeing npage zs A z base₀ n₀ (s, z.base + i, n, 0)) (haligned : Aligned calls)
    (htiles : Tiles i (i + n) calls) :
    ∃ s', Ucore.perform (callSub (buddyFreePagesSub npage) z.base) calls s = .ok s' ∧
      s'.Inv npage zs (A \ Finset.Ico base₀ (base₀ + n₀)) ∧ KeepsCoalesced npage zs s s' := by
  induction calls generalizing s i n with
  | nil =>
    have htotal : z.base + i + n = base₀ + n₀ := F.total
    have hinv : s.Inv npage zs (A \ Finset.Ico base₀ (z.base + i)) := F.inv
    have hzero : i = i + n := htiles
    rw [show z.base + i = base₀ + n₀ by omega] at hinv
    exact ⟨s, rfl, hinv, fun _ h => h⟩
  | cons c calls ih =>
    obtain ⟨i', k⟩ := c
    obtain ⟨rfl, htiles⟩ : i' = i ∧ Tiles (i + 2 ^ k) (i + n) calls := htiles
    have hk : 2 ^ k ≤ n := by
      have := htiles.le
      omega
    have hal : (z.base + i' - z.base) % 2 ^ k = 0 := by
      rw [Nat.add_sub_cancel_left]
      exact Nat.mod_eq_zero_of_dvd (haligned _ List.mem_cons_self).2
    have F' : Freeing npage zs A z base₀ n₀ (s, z.base + i', n, k) := ⟨F.inv, F.le, F.total, hal⟩
    obtain ⟨s₁, hs₁, H₁, hkeep₁⟩ := F'.sub hargs hk
    have hle : base₀ ≤ z.base + i' := F.le
    have htotal : z.base + i' + n = base₀ + n₀ := F.total
    have F₁ : Freeing npage zs A z base₀ n₀ (s₁, z.base + (i' + 2 ^ k), n - 2 ^ k, 0) := by
      rw [Nat.add_assoc] at H₁
      refine ⟨H₁, ?_, ?_, Nat.mod_one _⟩
      · show base₀ ≤ z.base + (i' + 2 ^ k)
        omega
      · show z.base + (i' + 2 ^ k) + (n - 2 ^ k) = base₀ + n₀
        omega
    obtain ⟨s', hs', H', hkeep'⟩ := ih F₁ (fun c hc => haligned c (List.mem_cons_of_mem _ hc))
      (by rwa [show i' + 2 ^ k + (n - 2 ^ k) = i' + n by omega])
    refine ⟨s', ?_, H', fun ha h => hkeep' ha (hkeep₁ ha h)⟩
    rw [perform_cons, callSub, hs₁, Res.ok_bind, hs']

/-- **`buddy_free_pages` frees exactly the range it is given**, and none of its assertions fires,
nor any of those of `buddy_free_pages_sub`. -/
theorem buddyFreePages_spec (H : s.Inv npage zs A) (hargs : FreeArgs zs A z base₀ n₀)
    (hpos : 0 < n₀) : ∃ s', buddyFreePages npage s base₀ n₀ = .ok s' ∧
      s'.Inv npage zs (A \ Finset.Ico base₀ (base₀ + n₀)) ∧ KeepsCoalesced npage zs s s' := by
  obtain ⟨i, hi⟩ := List.mem_iff_getElem?.1 hargs.mem
  have hend := hargs.le_end
  have hbase : z.base + (base₀ - z.base) = base₀ := Nat.add_sub_cancel' hargs.base_le
  obtain ⟨calls, haligned, htiles, hwith⟩ := freePagesWith_eq (base₀ - z.base) hpos hargs.lt
  have hidx : ∀ s', s.SameZones s' → ∀ j, base₀ - z.base ≤ j → j < base₀ - z.base + n₀ →
      page2idx s' (z.base + j) = j := by
    intro s' hs' j hj hj'
    rw [hs'.page2idx_eq, H.page2idx_eq hi (Zone.mem_pages.2 ⟨by omega, by omega⟩),
      Nat.add_sub_cancel_left]
  have hrun := hwith Buddy page2idx (buddyFreePagesSub npage) (fun s' => s.SameZones s') z.base
    (fun p k s₁ s₂ h₁ h₂ => h₁.trans (.buddyFreePagesSub h₂)) hidx s (.refl s)
  rw [hbase] at hrun
  have F : Freeing npage zs A z base₀ n₀ (s, z.base + (base₀ - z.base), n₀, 0) := by
    rw [hbase]
    refine ⟨?_, le_rfl, rfl, Nat.mod_one _⟩
    rw [Finset.Ico_self, Finset.sdiff_empty]
    exact H
  rw [buddyFreePages_eq, hrun]
  exact F.perform hargs haligned htiles

end

end Buddy.Inv

end Ucore
