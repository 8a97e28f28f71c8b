import Ucore.Buddy.Canon

/-!
# Allocation fails only if it has to

`buddy_alloc_pages_sub` looks at the lists from the wanted order on and takes the first block of the
first list that has one (`buddyAllocPagesSub_first`).  If all of them are empty there is no aligned
run of free pages either, because every such run lies in a free block (`Inv.covered`).

* `Best` is the block to take: the least order that has one, and the page that is first on its list.
* `buddyAllocPages_first` says that this block is what `buddy_alloc_pages` returns, in any state.
* `Inv.exists_freeRun_iff` says that there is an aligned run of free pages if and only if some list
  from its order on has a block.

`buddy_alloc_exact` puts this together with what the allocator does to the set of the free pages.
-/

set_option autoImplicit false

namespace Ucore

/-- A block that fits has smaller ones at its start. -/
theorem Zone.Fits.lower {z : Zone} {p j k : ℕ} (h : z.Fits p k) (hjk : j ≤ k) : z.Fits p j := by
  have hpow : 2 ^ j ≤ 2 ^ k := Nat.pow_le_pow_right (by omega) hjk
  have hend := h.le_end
  exact ⟨h.base_le, mod_two_pow_of_le h.aligned hjk, by omega⟩

namespace Buddy

variable {npage : ℕ} {zs : List Zone} {A : Finset ℕ} {s : Buddy}

/-- **The block to take** for a request of order `order`: the least order from there on that has
one, and the first block on its list. -/
structure Best (s : Buddy) (order j p : ℕ) : Prop where
  onList : s.OnList j p
  le : order ≤ j
  first : ∃ rest, (s.freeArea j).freeList = p :: rest
  least : ∀ i q, order ≤ i → i < j → ¬ s.OnList i q

theorem not_onList_of_isEmpty {k : ℕ} (h : (s.freeArea k).freeList.isEmpty = true) (p : ℕ) :
    ¬ s.OnList k p := by
  intro hon
  have hmem := hon.2
  rw [List.isEmpty_iff.1 h] at hmem
  exact List.not_mem_nil hmem

/-- The first part of `buddy_alloc_pages_sub`: what it returns, in any state. -/
theorem buddyAllocPagesSub_first {order : ℕ} {page : Option ℕ} {s' : Buddy}
    (h : buddyAllocPagesSub s order = .ok (page, s')) :
    (page = none ∧ s' = s ∧ ∀ j p, order ≤ j → ¬ s.OnList j p) ∨
      ∃ j p, page = some p ∧ s.Best order j p := by
  rw [buddyAllocPagesSub, assert_bind_eq_ok] at h
  obtain ⟨-, h⟩ := h
  simp only [List.find?_filter, decide_eq_true_eq, Bool.not_eq_true'] at h
  cases hfind : (List.range (maxOrder + 1)).find?
      fun k => decide (order ≤ k ∧ (s.freeArea k).freeList.isEmpty = false) with
  | none =>
    simp only [hfind, Res.pure_eq, Except.ok.injEq, Prod.mk.injEq] at h
    refine .inl ⟨h.1.symm, h.2.symm, fun j p hj hon => ?_⟩
    have hno := List.find?_eq_none.1 hfind j (List.mem_range.2 (Nat.lt_succ_iff.2 hon.1))
    rw [decide_eq_true_eq, not_and, Bool.not_eq_false] at hno
    exact not_onList_of_isEmpty (hno hj) p hon
  | some j =>
    obtain ⟨hj, hmem, hmin⟩ := List.find?_range_eq_some.1 hfind
    rw [decide_eq_true_eq] at hj
    cases hlist : (s.freeArea j).freeList with
    | nil =>
      rw [hlist] at hj
      exact absurd hj.2 (by simp)
    | cons p rest =>
      simp only [hfind, hlist, Res.pure_eq, Except.ok.injEq, Prod.mk.injEq] at h
      have hon : s.OnList j p :=
        ⟨Nat.lt_succ_iff.1 (List.mem_range.1 hmem), by rw [hlist]; exact List.mem_cons_self⟩
      refine .inr ⟨j, p, h.1.symm, hon, hj.1, ⟨rest, hlist⟩, fun i q hi hij => ?_⟩
      have hno := hmin i hij
      rw [Bool.not_eq_true', decide_eq_false_iff_not, not_and, Bool.not_eq_false] at hno
      exact not_onList_of_isEmpty (hno hi) q

/-- **What `buddy_alloc_pages` returns**: nothing, if there are no blocks from the order of the
request on, and otherwise the block to take. -/
theorem buddyAllocPages_first {n : ℕ} {page : Option ℕ} {s' : Buddy} (hn : n ≤ 2 ^ maxOrder)
    (h : buddyAllocPages npage s n = .ok (page, s')) :
    ∃ k ≤ maxOrder, n ≤ 2 ^ k ∧ (∀ j < k, 2 ^ j < n) ∧
      ((page = none ∧ s' = s ∧ ∀ j p, k ≤ j → ¬ s.OnList j p) ∨
        ∃ j p, page = some p ∧ s.Best k j p) := by
  obtain ⟨k, hk, hkmax, hle, hmin⟩ := getorder_spec hn
  refine ⟨k, hkmax, hle, hmin, ?_⟩
  rw [buddyAllocPages, assert_bind_eq_ok, hk] at h
  obtain ⟨-, h⟩ := h
  rw [Res.ok_bind, Res.bind_eq_ok] at h
  obtain ⟨⟨page₁, s₁⟩, hsub, h⟩ := h
  rcases buddyAllocPagesSub_first hsub with ⟨rfl, rfl, hno⟩ | ⟨j, p, rfl, hbest⟩
  · simp only [Res.pure_eq, Except.ok.injEq, Prod.mk.injEq] at h
    exact .inl ⟨h.1.symm, h.2.symm, hno⟩
  · refine .inr ⟨j, p, ?_, hbest⟩
    simp only at h
    split at h
    · rw [Res.bind_eq_ok] at h
      obtain ⟨s₂, -, h⟩ := h
      simp only [Res.pure_eq, Except.ok.injEq, Prod.mk.injEq] at h
      exact h.1.symm
    · simp only [Res.pure_eq, Except.ok.injEq, Prod.mk.injEq] at h
      exact h.1.symm

/-- An aligned run of `2 ^ k` free pages in a zone. -/
def FreeRun (s : Buddy) (zs : List Zone) (k p : ℕ) : Prop :=
  (∃ z ∈ zs, z.Fits p k) ∧ block p k ⊆ s.freePages

theorem Inv.freeRun_iff (H : s.Inv npage zs A) {k p : ℕ} (hk : k ≤ maxOrder) :
    s.FreeRun zs k p ↔ FreeBlock zs A k p := by
  rw [FreeRun, FreeBlock, H.freePages_eq]
  constructor
  · rintro ⟨hz, hsub⟩
    exact ⟨hk, hz, fun x hx => (Finset.mem_sdiff.1 (hsub hx)).2⟩
  · rintro ⟨-, ⟨z, hz, hfit⟩, hfree⟩
    refine ⟨⟨z, hz, hfit⟩, fun x hx => Finset.mem_sdiff.2 ⟨?_, hfree x hx⟩⟩
    exact mem_zonePages.2 ⟨z, hz, hfit.subset hx⟩

/-- There is an aligned run of free pages if and only if a list from its order on has a block. -/
theorem Inv.exists_freeRun_iff (H : s.Inv npage zs A) (hs : s.Coalesced zs) {k : ℕ}
    (hk : k ≤ maxOrder) : (∃ p, s.FreeRun zs k p) ↔ ∃ j p, k ≤ j ∧ s.OnList j p := by
  constructor
  · rintro ⟨p, hp⟩
    obtain ⟨j, q, hon, hle, -⟩ := H.covered hs k p ((H.freeRun_iff hk).1 hp)
    exact ⟨j, q, hle, hon⟩
  · rintro ⟨j, p, hle, hon⟩
    obtain ⟨-, -, z, hz, hfit⟩ := H.free j p hon
    refine ⟨p, ⟨z, hz, hfit.lower hle⟩, fun x hx => mem_freePages.2 ⟨j, p, hon, ?_⟩⟩
    exact block_mono hle hx

end Buddy

/-- **`buddy_alloc_pages` is complete, exact and atomic.**  Let `k` be the least order whose blocks
have room for `n` pages.  A call returns a null pointer if and only if no zone has an aligned run of
`2 ^ k` free pages, and then it changes nothing.  Otherwise it returns the start of a free block of
the least sufficient order, which is aligned to `2 ^ k` in its zone; the `n` pages from there on
were free and lie in the zone, and they are the only ones that are not free any more. -/
theorem buddy_alloc_exact {npage : ℕ} {s : Buddy} {zs : List Zone} {A : Finset ℕ}
    (h : Buddy.Reach npage s zs A) (harray : InArray npage zs) {n : ℕ} (hpos : 1 ≤ n)
    (hn : n ≤ 2 ^ maxOrder) :
    ∃ k, n ≤ 2 ^ k ∧ (∀ j < k, 2 ^ j < n) ∧ ∃ page s', buddyAllocPages npage s n = .ok (page, s') ∧
      (page = none ↔ ¬ ∃ p, s.FreeRun zs k p) ∧ (page = none → s' = s) ∧
      ∀ p, page = some p → (∃ j, s.Best k j p) ∧
        (∃ z ∈ zs, z.base ≤ p ∧ (p - z.base) % 2 ^ k = 0 ∧ p + n ≤ z.base + z.len) ∧
        Finset.Ico p (p + n) ⊆ s.freePages ∧ s'.freePages = s.freePages \ Finset.Ico p (p + n) ∧
        buddyNrFreePages s' = buddyNrFreePages s - n := by
  have H := h.inv
  have hrun : ∃ page s', buddyAllocPages npage s n = .ok (page, s') := by
    rcases H.buddyAllocPages_spec hpos hn with hnone | ⟨p, s', hs', -⟩
    · exact ⟨_, _, hnone⟩
    · exact ⟨_, _, hs'⟩
  obtain ⟨page, s', hrun⟩ := hrun
  obtain ⟨k, hkmax, hle, hmin, hfirst⟩ := Buddy.buddyAllocPages_first hn hrun
  have hexists := H.exists_freeRun_iff (h.coalesced harray) hkmax
  refine ⟨k, hle, hmin, page, s', hrun, ?_, ?_, ?_⟩
  · rw [hexists]
    rcases hfirst with ⟨hpage, -, hno⟩ | ⟨j, p, hpage, hbest⟩
    · refine iff_of_true hpage ?_
      rintro ⟨j, p, hj, hon⟩
      exact hno j p hj hon
    · refine iff_of_false (by rw [hpage]; exact Option.some_ne_none p) ?_
      exact not_not.2 ⟨j, p, hbest.le, hbest.onList⟩
  · intro hpage
    rcases hfirst with ⟨-, hs', -⟩ | ⟨j, p, hsome, -⟩
    · exact hs'
    · rw [hpage] at hsome
      exact absurd hsome (Option.some_ne_none p).symm
  · rintro p rfl
    rcases hfirst with ⟨hnone, -⟩ | ⟨j, q, hsome, hbest⟩
    · exact absurd hnone (Option.some_ne_none p)
    obtain rfl := Option.some_inj.1 hsome
    -- the specification of the call gives the invariant of the new state
    rcases H.buddyAllocPages_spec hpos hn with hnone | ⟨q, s₁, hs₁, H', -, hnew, -⟩
    · rw [hrun] at hnone
      simp at hnone
    rw [hrun, Except.ok.injEq, Prod.mk.injEq, Option.some_inj] at hs₁
    obtain ⟨rfl, rfl⟩ := hs₁
    obtain ⟨-, -, z, hz, hfit⟩ := H.free j p hbest.onList
    have hfit' := hfit.lower hbest.le
    have hend := hfit'.le_end
    have hsub : Finset.Ico p (p + n) ⊆ s.freePages := by
      intro x hx
      rw [Finset.mem_Ico] at hx
      refine Buddy.mem_freePages.2 ⟨j, p, hbest.onList, block_mono hbest.le (mem_block.2 ?_)⟩
      omega
    have hfree : s'.freePages = s.freePages \ Finset.Ico p (p + n) := by
      rw [H.freePages_eq, H'.freePages_eq, ← Finset.sup_eq_union, ← sdiff_sdiff_left]
    refine ⟨⟨j, hbest⟩, ⟨z, hz, hfit'.base_le, hfit'.aligned, by omega⟩, hsub, hfree, ?_⟩
    have hcard := Finset.card_sdiff_add_card_eq_card hsub
    rw [Nat.card_Ico, Nat.add_sub_cancel_left] at hcard
    rw [H.buddyNrFreePages_eq, H'.buddyNrFreePages_eq, ← H.freePages_eq, ← H'.freePages_eq, hfree]
    omega

/-- Of eight pages three are taken from the only free block, and a request for eight more fails. -/
theorem buddy_alloc_exact_eightPages : ∃ s A, Buddy.Reach 8 s [⟨0, 8⟩] A ∧
    s.freePages = Finset.Ico 3 8 ∧ buddyAllocPages 8 s 8 = .ok (none, s) := by
  have h₀ : Buddy.Reach 8 (buddyInit eightPages) [] ∅ := .init rfl fun _ _ => rfl
  have hok : Buddy.MemmapOk (buddyInit eightPages) [] 0 8 :=
    ⟨by decide, by decide, by decide, fun _ _ => rfl⟩
  have h₁ := h₀.memmap hok rfl
  obtain ⟨s, h₂⟩ : ∃ s, Buddy.Reach 8 s [⟨0, 8⟩] (∅ ∪ Finset.Ico 0 (0 + 3)) :=
    ⟨_, h₁.alloc (by decide) (by decide) rfl⟩
  have harray : InArray 8 [⟨0, 8⟩] := by
    intro z hz
    rw [List.mem_singleton.1 hz]
    decide
  have hfree := h₂.inv.freePages_eq.trans
    (show zonePages [⟨0, 8⟩] \ (∅ ∪ Finset.Ico 0 (0 + 3)) = Finset.Ico 3 8 by decide)
  obtain ⟨k, hk, -, page, s', hrun, hnone, hsame, -⟩ :=
    buddy_alloc_exact h₂ harray (show 1 ≤ 8 by decide) (show 8 ≤ 2 ^ maxOrder by decide)
  -- eight pages in a row would start at the first one
  have hpage : page = none := by
    refine hnone.2 ?_
    rintro ⟨p, ⟨z, hz, hfit⟩, hsub⟩
    have hmem := hsub (left_mem_block p k)
    have hend := hfit.le_end
    rw [hfree, Finset.mem_Ico] at hmem
    rw [List.mem_singleton.1 hz] at hend
    simp only at hend
    omega
  refine ⟨_, _, h₂, hfree, ?_⟩
  rw [hrun, hpage, hsame hpage]

end Ucore
