import Ucore.Buddy.Free

/-!
# Allocating pages, and handing zones to the allocator

`buddyAllocPagesSub` takes the first block of the first order that has one and gives the upper
halves back until a block of the wanted order is left.  It clears the flag of that block only at the
end; `splitBlock_clearPageProperty` moves the line to the place where `Inv.remove` expects it.

`buddyInitMemmap` adds a zone.  Right after its first loop all pages of the new zone count as
allocated (`Inv.newZone`), and the second loop makes them free, block by block.

* `getorder_spec` — the order of a request is the least one whose blocks are large enough.
* `splitBlock_spec` — the inner loop.  Its invariant is `Inv` with the block that is left allocated;
  each round is one `Inv.add`, for the upper half.
* `buddyAllocPagesSub_spec` — an aligned block of free pages, or no change.
* `buddyAllocPages_spec` — and after the tail of the block has been freed, exactly the pages that
  were asked for.  That is a call of `buddy_free_pages`, and its result is used.
* `initPages_spec` and `Inv.newZone` — the first loop of `buddy_init_memmap`.
* `buddyInitMemmap_spec` — the second one, with the invariant `Carving`.  The blocks are put on the
  lists from the largest order down, and as each of them is a lower half (`Lower`), the zone has no
  two free buddies either.
-/

set_option autoImplicit false

namespace Ucore

namespace Buddy

theorem addBlock_ref (s : Buddy) (p k x : ℕ) :
    ((s.addBlock p k).page x).ref = (s.page x).ref := by
  rw [addBlock_page]
  by_cases hx : x = p
  · subst hx
    rw [Function.update_self]
  · rw [Function.update_of_ne hx]

/-- Clearing the flag of a page commutes with putting another one on a list. -/
theorem addBlock_clearPageProperty (s : Buddy) {p q : ℕ} (k : ℕ) (h : q ≠ p) :
    (s.addBlock q k).clearPageProperty p = (s.clearPageProperty p).addBlock q k := by
  have hpage : ((s.addBlock q k).clearPageProperty p).page =
      ((s.clearPageProperty p).addBlock q k).page := by
    rw [clearPageProperty, setPage, addBlock_page, addBlock_page, clearPageProperty, setPage]
    simp only
    rw [Function.update_of_ne h.symm, Function.update_of_ne h, Function.update_comm h]
  have harea : ((s.addBlock q k).clearPageProperty p).freeArea =
      ((s.clearPageProperty p).addBlock q k).freeArea := by
    rw [addBlock_freeArea]
    show (s.addBlock q k).freeArea = _
    rw [addBlock_freeArea]
    rfl
  calc (s.addBlock q k).clearPageProperty p
      = ⟨((s.addBlock q k).clearPageProperty p).page,
          ((s.addBlock q k).clearPageProperty p).freeArea, s.memBase, s.zoneNum⟩ := rfl
    _ = (s.clearPageProperty p).addBlock q k := by
        rw [hpage, harea]
        rfl

end Buddy

theorem splitBlock_clearPageProperty (order page k : ℕ) (s : Buddy) :
    (splitBlock order page k s).clearPageProperty page =
      splitBlock order page k (s.clearPageProperty page) := by
  induction k generalizing s with
  | zero => rfl
  | succ k ih =>
    rw [splitBlock, splitBlock]
    by_cases hk : order < k + 1
    · have hne : page + 2 ^ k ≠ page := by
        have := Nat.two_pow_pos k
        omega
      rw [if_pos hk, if_pos hk, ih, s.addBlock_clearPageProperty k hne]
    · rw [if_neg hk, if_neg hk]

/-- `getorder` finds the least order whose blocks are large enough. -/
theorem getorder_spec {n : ℕ} (hn : n ≤ 2 ^ maxOrder) :
    ∃ k, getorder n = .ok k ∧ k ≤ maxOrder ∧ n ≤ 2 ^ k ∧ ∀ j < k, 2 ^ j < n := by
  have hsome : ((List.range (maxOrder + 1)).find? fun order => n ≤ 2 ^ order).isSome := by
    rw [List.find?_isSome]
    exact ⟨maxOrder, List.mem_range.2 (by omega), by simpa using hn⟩
  obtain ⟨k, hk⟩ := Option.isSome_iff_exists.1 hsome
  refine ⟨k, ?_, ?_⟩
  · rw [getorder, hk]
  · rw [List.find?_range_eq_some] at hk
    obtain ⟨hle, hmem, hmin⟩ := hk
    refine ⟨by rw [List.mem_range] at hmem; omega, of_decide_eq_true hle, fun j hj => ?_⟩
    simpa using hmin j hj

/-- The two halves of a block that fits fit. -/
theorem Zone.Fits.halves {z : Zone} {p k : ℕ} (h : z.Fits p (k + 1)) :
    z.Fits p k ∧ z.Fits (p + 2 ^ k) k := by
  have hend := h.le_end
  have hbase := h.base_le
  have hal := mod_two_pow_of_le h.aligned (Nat.le_succ k)
  rw [pow_succ] at hend
  refine ⟨⟨hbase, hal, by omega⟩, ⟨by omega, ?_, by omega⟩⟩
  rw [Nat.sub_add_comm hbase]
  exact add_two_pow_mod hal

namespace Buddy.Inv

variable {npage : ℕ} {zs : List Zone} {A : Finset ℕ} {s : Buddy}

/-! ## Allocation -/

/-- The inner loop of `buddy_alloc_pages_sub`. -/
theorem splitBlock_spec {order page k : ℕ} (horder : order ≤ k)
    (H : s.Inv npage zs (A ∪ block page k)) (hk : k ≤ maxOrder) {z : Zone} (hz : z ∈ zs)
    (hfit : z.Fits page k) (hdisj : ∀ x ∈ block page k, x ∉ A)
    (href : ∀ x ∈ block page k, (s.page x).ref = 0) :
    (splitBlock order page k s).Inv npage zs (A ∪ block page order) ∧ z.Fits page order ∧
      KeepsCoalesced npage zs s (splitBlock order page k s) := by
  induction k generalizing s with
  | zero =>
    obtain rfl : order = 0 := Nat.le_zero.1 horder
    exact ⟨H, hfit, fun _ h => h⟩
  | succ k ih =>
    rw [splitBlock]
    by_cases hlt : order < k + 1
    · rw [if_pos hlt]
      obtain ⟨hlow, hup⟩ := hfit.halves
      have hupper : ∀ x ∈ block (page + 2 ^ k) k, x ∈ block page (k + 1) := fun x hx => by
        rw [block_succ]
        exact Finset.mem_union_right _ hx
      have hlower : ∀ x ∈ block page k, x ∈ block page (k + 1) := fun x hx => by
        rw [block_succ]
        exact Finset.mem_union_left _ hx
      have hadd := H.add (by omega) hz hup
        (fun x hx => Finset.mem_union_right _ (hupper x hx)) fun x hx => href x (hupper x hx)
      have hset : (A ∪ block page (k + 1)) \ block (page + 2 ^ k) k = A ∪ block page k := by
        ext x
        rw [Finset.mem_sdiff, Finset.mem_union, Finset.mem_union, block_succ, Finset.mem_union]
        constructor
        · rintro ⟨hA | hl | hu, hnot⟩
          · exact .inl hA
          · exact .inr hl
          · exact absurd hu hnot
        · rintro (hA | hl)
          · exact ⟨.inl hA, fun hu => hdisj x (hupper x hu) hA⟩
          · refine ⟨.inr (.inl hl), ?_⟩
            rw [mem_block] at hl ⊢
            omega
      rw [hset] at hadd
      -- the lower half is not free
      have hkeep : KeepsCoalesced npage zs s (s.addBlock (page + 2 ^ k) k) := by
        intro _ h
        refine H.coalesced_add h (by omega) hz hup fun _ q hq hon => ?_
        have hpow := Nat.two_pow_pos k
        rcases hq with ⟨hfit', -⟩ | ⟨-, heq⟩
        · have hal := hfit'.aligned
          rw [Nat.sub_add_comm hfit.base_le, Nat.add_mod, hfit.aligned, Nat.zero_add, Nat.mod_mod,
            Nat.mod_eq_of_lt (Nat.pow_lt_pow_right (by omega) (by omega))] at hal
          omega
        · obtain rfl : q = page := by omega
          exact H.onList_not_mem hon (left_mem_block q k)
            (Finset.mem_union_right _ (left_mem_block q (k + 1)))
      obtain ⟨H', hfit', hkeep'⟩ := ih (by omega) hadd (by omega) hlow
        (fun x hx => hdisj x (hlower x hx)) fun x hx => by
          rw [addBlock_ref]
          exact href x (hlower x hx)
      exact ⟨H', hfit', fun ha h => hkeep' ha (hkeep ha h)⟩
    · obtain rfl : order = k + 1 := by omega
      rw [if_neg hlt]
      exact ⟨H, hfit, fun _ h => h⟩

/-- **`buddy_alloc_pages_sub`** returns an aligned block of free pages, or changes nothing. -/
theorem buddyAllocPagesSub_spec (H : s.Inv npage zs A) {order : ℕ} (horder : order ≤ maxOrder) :
    buddyAllocPagesSub s order = .ok (none, s) ∨
      ∃ page s', buddyAllocPagesSub s order = .ok (some page, s') ∧
        s'.Inv npage zs (A ∪ block page order) ∧ (∃ z ∈ zs, z.Fits page order) ∧
        (∀ x ∈ block page order, x ∉ A) ∧ KeepsCoalesced npage zs s s' := by
  rw [buddyAllocPagesSub, assert_pos horder, Res.ok_bind]
  cases hfind : ((List.range (maxOrder + 1)).filter fun k => order ≤ k).find?
      fun k => !(s.freeArea k).freeList.isEmpty with
  | none =>
    left
    simp only [hfind, Res.pure_eq]
  | some k =>
    have hmem := List.mem_of_find?_eq_some hfind
    rw [List.mem_filter, List.mem_range, decide_eq_true_eq] at hmem
    cases hlist : (s.freeArea k).freeList with
    | nil =>
      left
      simp only [hfind, hlist, Res.pure_eq]
    | cons page rest =>
      have hk : k ≤ maxOrder := by omega
      have hon : s.OnList k page := ⟨hk, by rw [hlist]; exact List.mem_cons_self⟩
      obtain ⟨-, -, z, hz, hfit⟩ := H.free k page hon
      obtain ⟨H', href⟩ := H.remove hon
      obtain ⟨H'', hfit', hkeep⟩ := splitBlock_spec hmem.2 H' hk hz hfit
        (fun x hx => H.onList_not_mem hon hx) href
      refine .inr ⟨page, _, ?_, H'', ⟨z, hz, hfit'⟩, ?_, fun ha h =>
        hkeep ha (h.mono fun j q hq => (H.removeBlock_onList.1 hq).1)⟩
      · simp only [hfind, hlist, Res.pure_eq, splitBlock_clearPageProperty]
        rfl
      · intro x hx
        refine H.onList_not_mem hon ?_
        have hpow : 2 ^ order ≤ 2 ^ k := Nat.pow_le_pow_right (by omega) hmem.2
        rw [mem_block] at hx ⊢
        omega

/-- **`buddy_alloc_pages` returns `n` free pages of one zone, or changes nothing.**  The tail of the
block, which it frees at once, satisfies the demands of `buddy_free_pages`. -/
theorem buddyAllocPages_spec (H : s.Inv npage zs A) {n : ℕ} (hpos : 0 < n)
    (hn : n ≤ 2 ^ maxOrder) :
    buddyAllocPages npage s n = .ok (none, s) ∨
      ∃ page s', buddyAllocPages npage s n = .ok (some page, s') ∧
        s'.Inv npage zs (A ∪ Finset.Ico page (page + n)) ∧
        (∃ z ∈ zs, z.base ≤ page ∧ page + n ≤ z.base + z.len) ∧
        (∀ x ∈ Finset.Ico page (page + n), x ∉ A) ∧ KeepsCoalesced npage zs s s' := by
  obtain ⟨k, hk, hkmax, hle, -⟩ := getorder_spec hn
  rw [buddyAllocPages, assert_pos hpos, Res.ok_bind, hk, Res.ok_bind]
  rcases H.buddyAllocPagesSub_spec hkmax with
    hnone | ⟨page, s₁, hsome, H₁, ⟨z, hz, hfit⟩, hfree, hkeep₁⟩
  · left
    rw [hnone]
    rfl
  · right
    have hend := hfit.le_end
    have hbase := hfit.base_le
    have hsub : ∀ x ∈ Finset.Ico page (page + n), x ∈ block page k := fun x hx => by
      rw [Finset.mem_Ico] at hx
      rw [mem_block]
      omega
    rw [hsome, Res.ok_bind]
    by_cases hexact : n = 2 ^ k
    · refine ⟨page, s₁, ?_, ?_, ⟨z, hz, hbase, by omega⟩, fun x hx => hfree x (hsub x hx), hkeep₁⟩
      · simp only [hexact, ne_eq, not_true_eq_false, if_false, Res.pure_eq]
      · rw [hexact]
        exact H₁
    · have hpow : 2 ^ k ≤ 2 ^ maxOrder := Nat.pow_le_pow_right (by omega) hkmax
      have hpow' : 2 ^ maxOrder < 2 ^ (maxOrder + 1) := Nat.pow_lt_pow_right (by omega) (by omega)
      have hargs : FreeArgs zs (A ∪ block page k) z (page + n) (2 ^ k - n) := by
        refine ⟨hz, by omega, by omega, ?_, by omega⟩
        intro x hx
        rw [Finset.mem_Ico] at hx
        refine Finset.mem_union_right _ (mem_block.2 ?_)
        omega
      obtain ⟨s₂, hs₂, H₂, hkeep₂⟩ := H₁.buddyFreePages_spec hargs (by omega)
      refine ⟨page, s₂, ?_, ?_, ⟨z, hz, hbase, by omega⟩, fun x hx => hfree x (hsub x hx),
        fun ha h => hkeep₂ ha (hkeep₁ ha h)⟩
      · simp only [if_pos (show n ≠ 2 ^ k from hexact), hs₂, Res.ok_bind, Res.pure_eq]
      · have hset : A ∪ Finset.Ico page (page + n) =
            (A ∪ block page k) \ Finset.Ico (page + n) (page + n + (2 ^ k - n)) := by
          ext x
          have hx := hfree x
          rw [mem_block] at hx
          rw [Finset.mem_sdiff, Finset.mem_union, Finset.mem_union, mem_block, Finset.mem_Ico,
            Finset.mem_Ico]
          constructor
          · rintro (hA | hx')
            · exact ⟨.inl hA, fun h => hx (by omega) hA⟩
            · exact ⟨.inr (by omega), by omega⟩
          · rintro ⟨hA | hb, hnot⟩
            · exact .inl hA
            · exact .inr (by omega)
        rw [hset]
        exact H₂

/-! ## A new zone -/

/-- The pages of `r` enter the current zone. -/
def enterPages (s : Buddy) (r : Finset ℕ) : Buddy :=
  { s with page := fun x => if x ∈ r then ⟨0, {}, 0, s.zoneNum⟩ else s.page x }

/-- The first loop of `buddy_init_memmap`. -/
theorem initPages_spec (s : Buddy) (n p : ℕ)
    (h : ∀ x ∈ Finset.Ico p (p + n), (s.page x).flags.reserved = true) :
    initPages s p n = .ok (enterPages s (Finset.Ico p (p + n))) := by
  induction n generalizing s p with
  | zero =>
    simp only [enterPages, Nat.add_zero, Finset.Ico_self, Finset.notMem_empty, if_false]
    rfl
  | succ n ih =>
    have hp := h p (Finset.mem_Ico.2 ⟨le_rfl, by omega⟩)
    rw [initPages, assert_pos hp, Res.ok_bind, ih]
    · rw [enterPages, enterPages]
      congr 2
      funext x
      by_cases hx : x ∈ Finset.Ico (p + 1) (p + 1 + n)
      · have hx' : x ∈ Finset.Ico p (p + (n + 1)) := by
          rw [Finset.mem_Ico] at hx ⊢
          omega
        rw [if_pos hx, if_pos hx']
        rfl
      · rw [if_neg hx]
        by_cases hxp : x = p
        · subst hxp
          have hx' : x ∈ Finset.Ico x (x + (n + 1)) := Finset.mem_Ico.2 ⟨le_rfl, by omega⟩
          rw [if_pos hx']
          exact Function.update_self ..
        · have hx' : x ∉ Finset.Ico p (p + (n + 1)) := by
            rw [Finset.mem_Ico] at hx ⊢
            omega
          rw [if_neg hx']
          exact Function.update_of_ne hxp ..
    · intro x hx
      have hne : x ≠ p := by
        rw [Finset.mem_Ico] at hx
        omega
      rw [Buddy.setPage]
      simp only [Function.update_of_ne hne]
      refine h x ?_
      rw [Finset.mem_Ico] at hx ⊢
      omega

/-- The allocator before the second loop of `buddy_init_memmap` on the zone `z`. -/
def enterZone (s : Buddy) (z : Zone) : Buddy :=
  { enterPages s z.pages with
    memBase := Function.update s.memBase s.zoneNum z.base
    zoneNum := s.zoneNum + 1 }

/-- **A zone whose pages were reserved is added, with all its pages allocated.**  It is disjoint
from the zones there are, since their pages are not reserved. -/
theorem newZone (H : s.Inv npage zs A) (z : Zone)
    (hres : ∀ x ∈ z.pages, (s.page x).flags.reserved = true) :
    (enterZone s z).Inv npage (zs ++ [z]) (A ∪ z.pages) ∧ (∀ x ∈ z.pages, x ∉ A) ∧
      ∀ x ∈ z.pages, ((enterZone s z).page x).ref = 0 := by
  have hdisj : ∀ w ∈ zs, ∀ x ∈ w.pages, x ∉ z.pages := fun w hw x hx hxz => by
    have h := hres x hxz
    rw [H.reserved_of_mem hw hx] at h
    exact absurd h (by simp)
  have hnew : ∀ x ∈ z.pages, (enterZone s z).page x = ⟨0, {}, 0, s.zoneNum⟩ :=
    fun x hx => if_pos hx
  have hold : ∀ x, x ∉ z.pages → (enterZone s z).page x = s.page x := fun x hx => if_neg hx
  have hA : ∀ x ∈ z.pages, x ∉ A := fun x hx hA => by
    obtain ⟨w, hw, hxw⟩ := H.alloc x hA
    exact hdisj w hw x hxw hx
  have hon : ∀ k p, (enterZone s z).OnList k p ↔ s.OnList k p := fun k p => Iff.rfl
  have hfreeOld : ∀ k p, s.OnList k p → ∀ x ∈ block p k, x ∉ z.pages := fun k p hp x hx => by
    obtain ⟨-, -, w, hw, hfit⟩ := H.free k p hp
    exact hdisj w hw x (hfit.subset hx)
  have hmem : ∀ {w}, w ∈ zs ++ [z] ↔ w ∈ zs ∨ w = z := by simp
  refine ⟨⟨?_, ?_, ?_, ?_, ?_, ?_, H.nodup, H.blocks, ?_, ?_, H.count, ?_⟩, hA, ?_⟩
  · show s.zoneNum + 1 = _
    rw [List.length_append, H.zoneNum, List.length_singleton]
  · intro i w hw
    show Function.update s.memBase s.zoneNum z.base i = _
    by_cases hi : i = zs.length
    · subst hi
      rw [List.getElem?_concat_length, Option.some_inj] at hw
      rw [H.zoneNum, Function.update_self, hw]
    · rw [H.zoneNum, Function.update_of_ne hi]
      refine H.memBase i w ?_
      rcases Nat.lt_or_ge i zs.length with hlt | hge
      · rwa [List.getElem?_append_left hlt] at hw
      · have hlen : i < (zs ++ [z]).length := (List.getElem?_eq_some_iff.1 hw).1
        rw [List.length_append, List.length_singleton] at hlen
        omega
  · intro i w hw x hx
    by_cases hi : i < zs.length
    · rw [List.getElem?_append_left hi] at hw
      rw [hold x (hdisj w (List.mem_of_getElem? hw) x hx)]
      exact H.inZone i w hw x hx
    · have hlen : i < (zs ++ [z]).length := (List.getElem?_eq_some_iff.1 hw).1
      rw [List.length_append, List.length_singleton] at hlen
      obtain rfl : i = zs.length := by omega
      rw [List.getElem?_concat_length, Option.some_inj] at hw
      subst hw
      rw [hnew x hx]
      exact ⟨H.zoneNum, rfl⟩
  · intro x hx hout
    rw [hold x (hout z (hmem.2 (.inr rfl)))]
    exact H.outside x hx fun w hw => hout w (hmem.2 (.inl hw))
  · intro x hx
    rcases Finset.mem_union.1 hx with hx | hx
    · obtain ⟨w, hw, hxw⟩ := H.alloc x hx
      exact ⟨w, hmem.2 (.inl hw), hxw⟩
    · exact ⟨z, hmem.2 (.inr rfl), hx⟩
  · intro k p hp
    rw [hon] at hp
    obtain ⟨hflag, hprop, w, hw, hfit⟩ := H.free k p hp
    rw [hold p (hfreeOld k p hp p (left_mem_block p k))]
    exact ⟨hflag, hprop, w, hmem.2 (.inl hw), hfit⟩
  · intro w hw x hx
    rw [Finset.mem_union, not_or]
    simp only [hon]
    rcases hmem.1 hw with hw | rfl
    · rw [← H.cover w hw x hx]
      exact and_iff_left (hdisj w hw x hx)
    · constructor
      · exact fun h => absurd hx h.2
      · rintro ⟨k, p, hp, hxp⟩
        exact absurd hx (hfreeOld k p hp x hxp)
  · intro w hw x hx hflag
    rcases hmem.1 hw with hw | rfl
    · rw [hold x (hdisj w hw x hx)] at hflag
      exact H.flagged w hw x hx hflag
    · rw [hnew x hx] at hflag
      exact absurd hflag (by simp)
  · intro w hw x hx hxA
    rw [Finset.mem_union, not_or] at hxA
    rw [hold x hxA.2]
    rcases hmem.1 hw with hw | rfl
    · exact H.ref w hw x hx hxA.1
    · exact absurd hx hxA.2
  · intro x hx
    rw [hnew x hx]

/-! ## Carving the zone into blocks -/

/-- The state of the second loop of `buddy_init_memmap` on the allocator, `p` and `n`: the pages of
the zone from `p` on are left, and `p` is aligned for `order`. -/
structure Carving (npage : ℕ) (zs : List Zone) (A : Finset ℕ) (z : Zone) (order : ℕ)
    (st : Buddy × ℕ × ℕ) : Prop where
  inv : st.1.Inv npage zs (A ∪ Finset.Ico st.2.1 (st.2.1 + st.2.2))
  base_le : z.base ≤ st.2.1
  total : st.2.1 + st.2.2 = z.base + z.len
  aligned : (st.2.1 - z.base) % 2 ^ order = 0
  ref : ∀ x ∈ Finset.Ico st.2.1 (st.2.1 + st.2.2), (st.1.page x).ref = 0

variable {z : Zone}

theorem Carving.step {order p n : ℕ} (hz : z ∈ zs) (hA : ∀ x ∈ z.pages, x ∉ A)
    (horder : order ≤ maxOrder) (C : Carving npage zs A z order (s, p, n)) (hn : 2 ^ order ≤ n) :
    Carving npage zs A z order (s.addBlock p order, p + 2 ^ order, n - 2 ^ order) := by
  have hbase : z.base ≤ p := C.base_le
  have htotal : p + n = z.base + z.len := C.total
  have hpos := Nat.two_pow_pos order
  have href : ∀ x ∈ Finset.Ico p (p + n), (s.page x).ref = 0 := C.ref
  have hsub : ∀ x ∈ block p order, x ∈ Finset.Ico p (p + n) := fun x hx => by
    rw [mem_block] at hx
    rw [Finset.mem_Ico]
    omega
  have hadd := C.inv.add horder hz ⟨hbase, C.aligned, by omega⟩
    (fun x hx => Finset.mem_union_right _ (hsub x hx)) fun x hx => href x (hsub x hx)
  have hset : (A ∪ Finset.Ico p (p + n)) \ block p order =
      A ∪ Finset.Ico (p + 2 ^ order) (p + 2 ^ order + (n - 2 ^ order)) := by
    ext x
    have hx := hA x
    rw [Zone.mem_pages] at hx
    rw [Finset.mem_sdiff, Finset.mem_union, Finset.mem_union, Finset.mem_Ico, Finset.mem_Ico,
      mem_block]
    constructor
    · rintro ⟨hxA | hxp, hnot⟩
      · exact .inl hxA
      · exact .inr (by omega)
    · rintro (hxA | hxp)
      · exact ⟨.inl hxA, fun h => hx (by omega) hxA⟩
      · exact ⟨.inr (by omega), by omega⟩
  refine ⟨?_, ?_, ?_, ?_, ?_⟩
  · show (s.addBlock p order).Inv npage zs (A ∪ Finset.Ico _ _)
    rw [← hset]
    exact hadd
  · exact hbase.trans (Nat.le_add_right _ _)
  · show p + 2 ^ order + (n - 2 ^ order) = z.base + z.len
    omega
  · show (p + 2 ^ order - z.base) % 2 ^ order = 0
    rw [Nat.sub_add_comm hbase]
    exact add_two_pow_mod C.aligned
  · intro x hx
    rw [addBlock_ref]
    refine href x ?_
    rw [Finset.mem_Ico] at hx ⊢
    simp only at hx
    omega

/-- Below the largest order there is one block of each order at most, and it is a lower half. -/
def Lower (z : Zone) (order : ℕ) (st : Buddy × ℕ × ℕ) : Prop := order < maxOrder →
  st.2.2 < 2 ^ (order + 1) ∧ (2 ^ order ≤ st.2.2 → (st.2.1 - z.base) % 2 ^ (order + 1) = 0)

/-- The upper half of the block that is carved is not free. -/
theorem Carving.coalesced {order p n : ℕ} (hz : z ∈ zs) (horder : order ≤ maxOrder)
    (C : Carving npage zs A z order (s, p, n)) (hn : 2 ^ order ≤ n)
    (hlow : Lower z order (s, p, n)) :
    KeepsCoalesced npage zs s (s.addBlock p order) := by
  have hbase : z.base ≤ p := C.base_le
  have htotal : p + n = z.base + z.len := C.total
  have hpos := Nat.two_pow_pos order
  intro _ h
  refine C.inv.coalesced_add h horder hz ⟨hbase, C.aligned, by omega⟩ fun hlt q hq hon => ?_
  rcases hq with ⟨hfit, rfl⟩ | ⟨hfit, hp⟩
  · have hend := hfit.le_end
    rw [pow_succ] at hend
    refine C.inv.onList_not_mem hon (left_mem_block _ order) (Finset.mem_union_right _ ?_)
    rw [Finset.mem_Ico]
    show p ≤ p + 2 ^ order ∧ p + 2 ^ order < p + n
    omega
  · have hal : (p - z.base) % 2 ^ (order + 1) = 0 := (hlow hlt).2 hn
    have hq := hfit.base_le
    rw [hp, Nat.sub_add_comm hq, Nat.add_mod, hfit.aligned, Nat.zero_add, Nat.mod_mod,
      Nat.mod_eq_of_lt (Nat.pow_lt_pow_right (by omega) (by omega))] at hal
    omega

theorem carveOrder_spec {order : ℕ} (hz : z ∈ zs) (hA : ∀ x ∈ z.pages, x ∉ A)
    (horder : order ≤ maxOrder) {st : Buddy × ℕ × ℕ} (C : Carving npage zs A z order st)
    (hlow : Lower z order st) :
    ∃ st', carveOrder order st = .ok st' ∧ Carving npage zs A z order st' ∧
      KeepsCoalesced npage zs st.1 st'.1 ∧ st'.2.2 < 2 ^ order := by
  refine whileLoop_spec (fun m st' => m = st'.2.2 ∧ Carving npage zs A z order st' ∧
    Lower z order st' ∧ KeepsCoalesced npage zs st.1 st'.1)
      ⟨rfl, C, hlow, fun _ h => h⟩ le_rfl ?_ ?_
  · rintro n ⟨s, p, _⟩ ⟨rfl, C, hlow, hkeep⟩ hc
    have hn : 2 ^ order ≤ n := of_decide_eq_true hc
    have hpos := Nat.two_pow_pos order
    refine ⟨_, _, rfl, ⟨rfl, C.step hz hA horder hn, fun hlt => ?_, fun ha h =>
      C.coalesced hz horder hn hlow ha (hkeep ha h)⟩, ?_⟩
    · have h := (hlow hlt).1
      rw [pow_succ] at h ⊢
      simp only at h ⊢
      exact ⟨by omega, fun h' => absurd h' (by omega)⟩
    · show n - 2 ^ order < n
      omega
  · intro m st hI hc
    exact ⟨hI.2.1, hI.2.2.2, not_le.1 (of_decide_eq_false hc)⟩

theorem carve_spec (hz : z ∈ zs) (hA : ∀ x ∈ z.pages, x ∉ A) {p n : ℕ}
    (C : Carving npage zs A z maxOrder (s, p, n)) :
    ∃ r, carve s p n = .ok r ∧ r.1.1.Inv npage zs A ∧ KeepsCoalesced npage zs s r.1.1 := by
  -- a round at order 0 leaves nothing, so that the order never drops below 0
  refine whileLoop_spec (fun m r => r.2 ≤ maxOrder ∧ Carving npage zs A z r.2 r.1 ∧
    (r.1.2.2 = 0 ∨ m = r.2 + 1) ∧ Lower z r.2 r.1 ∧ KeepsCoalesced npage zs s r.1.1)
    ⟨le_rfl, C, .inr rfl, fun h => absurd h (lt_irrefl _), fun _ h => h⟩ le_rfl ?_ ?_
  · rintro m ⟨st, order⟩ ⟨horder, C, hm, hlow, hkeep⟩ hc
    have hn : st.2.2 ≠ 0 := of_decide_eq_true hc
    have hm' : m = order + 1 := hm.resolve_left hn
    obtain ⟨st', hst', C', hkeep', hlt⟩ := carveOrder_spec hz hA horder C hlow
    have C'' : Carving npage zs A z (order - 1) st' :=
      ⟨C'.inv, C'.base_le, C'.total, mod_two_pow_of_le C'.aligned (Nat.sub_le _ _), C'.ref⟩
    refine ⟨(st', order - 1), order, ?_, ⟨(Nat.sub_le _ _).trans horder, C'', ?_, ?_,
      fun ha h => hkeep' ha (hkeep ha h)⟩, by omega⟩
    · simp only [hst', Res.ok_bind, Res.pure_eq]
    · by_cases h0 : order = 0
      · left
        rw [h0, pow_zero] at hlt
        show st'.2.2 = 0
        omega
      · right
        show order = order - 1 + 1
        omega
    · intro _
      show st'.2.2 < 2 ^ (order - 1 + 1) ∧ (2 ^ (order - 1) ≤ st'.2.2 →
        (st'.2.1 - z.base) % 2 ^ (order - 1 + 1) = 0)
      by_cases h0 : order = 0
      · subst h0
        rw [pow_zero] at hlt
        exact ⟨hlt.trans_le (Nat.one_le_two_pow), fun h => absurd h (by simp; omega)⟩
      · rw [Nat.sub_add_cancel (Nat.pos_of_ne_zero h0)]
        exact ⟨hlt, fun _ => C'.aligned⟩
  · rintro m ⟨st, order⟩ ⟨-, C, -, -, hkeep⟩ hc
    have hn : st.2.2 = 0 := not_not.1 (of_decide_eq_false hc)
    have hinv := C.inv
    simp only at hinv
    rw [hn, Nat.add_zero, Finset.Ico_self, Finset.union_empty] at hinv
    exact ⟨hinv, hkeep⟩

/-- **`buddy_init_memmap` adds a zone all pages of which are free.** -/
theorem buddyInitMemmap_spec (H : s.Inv npage zs A) {base n : ℕ} (hpos : 0 < n)
    (hzone : zs.length < maxZoneNum)
    (hres : ∀ x ∈ Finset.Ico base (base + n), (s.page x).flags.reserved = true) :
    ∃ s', buddyInitMemmap s base n = .ok s' ∧ s'.Inv npage (zs ++ [⟨base, n⟩]) A ∧
      (InArray npage (zs ++ [⟨base, n⟩]) → s.Coalesced zs → s'.Coalesced (zs ++ [⟨base, n⟩])) := by
  obtain ⟨H', hA, href⟩ := H.newZone ⟨base, n⟩ hres
  have hz : (⟨base, n⟩ : Zone) ∈ zs ++ [⟨base, n⟩] := by simp
  have C : Carving npage (zs ++ [⟨base, n⟩]) A ⟨base, n⟩ maxOrder
      (enterZone s ⟨base, n⟩, base, n) :=
    ⟨H', le_rfl, rfl, by simp only [Nat.sub_self, Nat.zero_mod], href⟩
  obtain ⟨r, hr, H'', hkeep⟩ := carve_spec hz hA C
  have hnew : s.Coalesced zs → (enterZone s ⟨base, n⟩).Coalesced (zs ++ [⟨base, n⟩]) := by
    intro h w hw k hk p hp hboth
    rcases List.mem_append.1 hw with hw | hw
    · exact h w hw k hk p hp hboth
    · -- nothing in the new zone is free yet
      rw [List.mem_singleton.1 hw] at hp
      exact H'.onList_not_mem hboth.1 (left_mem_block p k)
        (Finset.mem_union_right _ (hp.subset (left_mem_block p (k + 1))))
  refine ⟨r.1.1, ?_, H'', fun ha h => hkeep ha (hnew h)⟩
  rw [buddyInitMemmap, assert_pos ⟨hpos, by rwa [H.zoneNum]⟩, Res.ok_bind,
    initPages_spec s n base hres, Res.ok_bind]
  show (carve (enterZone s ⟨base, n⟩) base n >>= fun st => pure st.1.1) = .ok r.1.1
  rw [hr, Res.ok_bind, Res.pure_eq]

end Buddy.Inv

end Ucore
