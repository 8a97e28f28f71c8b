import Ucore.Buddy.Run

/-!
# The free blocks do not depend on the history

If no two buddies are both free, the free blocks are the maximal blocks of free pages.  Which blocks
these are can be read off the zones and the set of the allocated pages, so that it does not matter
how the allocator came to its state.

* `Inv.covered` — every block of free pages lies in a free block;
* `Inv.onList_iff` — the free blocks are the maximal ones;
* `buddy_canonical` — the consequences for runs.

The first of these is an induction on the order.  A block has two halves, which lie in free blocks.
If that is the same one, the block lies in it too; and otherwise the halves are free blocks
themselves, and they are buddies, which is excluded.  What is used of the arithmetic is that of two
blocks of a zone that meet the larger one contains the other (`Zone.Fits.block_subset`).

For the consequences two runs are compared that end with the same zones and the same allocated pages
(`Reach.sameBlocks`), among them those that free a range at once or in parts, in any order
(`freeAll`).
-/

set_option autoImplicit false

namespace Ucore

/-! ## Blocks of one zone -/

/-- Of two blocks of a zone that meet the larger one contains the other. -/
theorem Zone.Fits.block_subset {z : Zone} {p j q k : ℕ} (hp : z.Fits p j) (hq : z.Fits q k)
    (hjk : j ≤ k) {x : ℕ} (hxp : x ∈ block p j) (hxq : x ∈ block q k) : block p j ⊆ block q k := by
  obtain ⟨a, ha⟩ := Nat.dvd_of_mod_eq_zero hp.aligned
  obtain ⟨b, hb⟩ := Nat.dvd_of_mod_eq_zero hq.aligned
  obtain ⟨d, rfl⟩ := Nat.exists_eq_add_of_le hjk
  have hbp := hp.base_le
  have hbq := hq.base_le
  rw [mem_block] at hxp hxq
  rw [pow_add] at hb hxq
  -- in units of the smaller block
  have h1 : 2 ^ j * a < 2 ^ j * (2 ^ d * b + 2 ^ d) := by
    rw [Nat.mul_add, ← Nat.mul_assoc]
    omega
  have h2 : 2 ^ j * (2 ^ d * b) < 2 ^ j * (a + 1) := by
    rw [Nat.mul_add, ← Nat.mul_assoc]
    omega
  have h3 := Nat.lt_of_mul_lt_mul_left h1
  have h4 := Nat.lt_of_mul_lt_mul_left h2
  have h5 : 2 ^ j * (2 ^ d * b) ≤ 2 ^ j * a := Nat.mul_le_mul_left _ (by omega)
  have h6 : 2 ^ j * (a + 1) ≤ 2 ^ j * (2 ^ d * b + 2 ^ d) := Nat.mul_le_mul_left _ (by omega)
  rw [← Nat.mul_assoc] at h5
  rw [Nat.mul_add, Nat.mul_add, ← Nat.mul_assoc] at h6
  intro y hy
  rw [mem_block] at hy ⊢
  rw [pow_add]
  omega

/-- Blocks of the same order with the same pages are equal. -/
theorem block_left_eq {p q k : ℕ} (h : block p k ⊆ block q k) : q = p := by
  have hpow := Nat.two_pow_pos k
  have h1 := mem_block.1 (h (left_mem_block p k))
  have h2 := mem_block.1 (h (mem_block.2 (show p ≤ p + 2 ^ k - 1 ∧
    p + 2 ^ k - 1 < p + 2 ^ k by omega)))
  omega

namespace Buddy

variable {npage : ℕ} {zs : List Zone} {A : Finset ℕ} {s : Buddy}

/-- The block lies in a zone and all its pages are free. -/
def FreeBlock (zs : List Zone) (A : Finset ℕ) (k p : ℕ) : Prop :=
  k ≤ maxOrder ∧ (∃ z ∈ zs, z.Fits p k) ∧ ∀ x ∈ block p k, x ∉ A

/-- It is not part of a larger one. -/
def Maximal (zs : List Zone) (A : Finset ℕ) (k p : ℕ) : Prop :=
  FreeBlock zs A k p ∧ ∀ j q, FreeBlock zs A j q → block p k ⊆ block q j → j = k ∧ q = p

namespace Inv

theorem freeBlock (H : s.Inv npage zs A) {k p : ℕ} (h : s.OnList k p) : FreeBlock zs A k p :=
  ⟨h.1, (H.free k p h).2.2, fun _ hx => H.onList_not_mem h hx⟩

/-- **Every block of free pages lies in a free block**, by induction on its order: if its halves lay
in different ones, these would be buddies. -/
theorem covered (H : s.Inv npage zs A) (hs : s.Coalesced zs) (k : ℕ) :
    ∀ p, FreeBlock zs A k p → ∃ j q, s.OnList j q ∧ k ≤ j ∧ block p k ⊆ block q j := by
  induction k with
  | zero =>
    rintro p ⟨-, ⟨z, hz, hfit⟩, hfree⟩
    obtain ⟨j, q, hon, hpq⟩ := (H.cover z hz p (hfit.subset (left_mem_block p 0))).1
      (hfree p (left_mem_block p 0))
    refine ⟨j, q, hon, Nat.zero_le j, fun x hx => ?_⟩
    rw [mem_block, pow_zero] at hx
    obtain rfl : x = p := by omega
    exact hpq
  | succ k ih =>
    rintro p ⟨hk, ⟨z, hz, hfit⟩, hfree⟩
    obtain ⟨hlow, hup⟩ := hfit.halves
    have hhalves := block_succ p k
    have hsub₁ : block p k ⊆ block p (k + 1) := hhalves ▸ Finset.subset_union_left
    have hsub₂ : block (p + 2 ^ k) k ⊆ block p (k + 1) := hhalves ▸ Finset.subset_union_right
    obtain ⟨j₁, q₁, hon₁, hle₁, hin₁⟩ :=
      ih p ⟨by omega, ⟨z, hz, hlow⟩, fun x hx => hfree x (hsub₁ hx)⟩
    obtain ⟨j₂, q₂, hon₂, hle₂, hin₂⟩ :=
      ih (p + 2 ^ k) ⟨by omega, ⟨z, hz, hup⟩, fun x hx => hfree x (hsub₂ hx)⟩
    -- a free block that is larger than a half contains both
    have hlarge : ∀ {j q r}, s.OnList j q → k + 1 ≤ j → r ∈ block p (k + 1) → r ∈ block q j →
        block p (k + 1) ⊆ block q j := by
      intro j q r hon hle hr hrq
      obtain ⟨-, -, w, hw, hfitw⟩ := H.free j q hon
      rw [H.zone_eq hw hz (hfitw.subset hrq) (hfit.subset hr)] at hfitw
      exact hfit.block_subset hfitw hle hr hrq
    by_cases h₁ : k + 1 ≤ j₁
    · exact ⟨j₁, q₁, hon₁, h₁, hlarge hon₁ h₁ (left_mem_block p (k + 1))
        (hin₁ (left_mem_block p k))⟩
    by_cases h₂ : k + 1 ≤ j₂
    · exact ⟨j₂, q₂, hon₂, h₂, hlarge hon₂ h₂ (hsub₂ (left_mem_block _ k))
        (hin₂ (left_mem_block _ k))⟩
    obtain rfl : j₁ = k := by omega
    obtain rfl : j₂ = j₁ := by omega
    have heq₁ : q₁ = p := block_left_eq hin₁
    have heq₂ : q₂ = p + 2 ^ j₂ := block_left_eq hin₂
    rw [heq₁] at hon₁
    rw [heq₂] at hon₂
    exact absurd ⟨hon₁, hon₂⟩ (hs z hz j₂ (by omega) p hfit)

/-- **The free blocks are the maximal blocks of free pages.** -/
theorem onList_iff (H : s.Inv npage zs A) (hs : s.Coalesced zs) {k p : ℕ} :
    s.OnList k p ↔ Maximal zs A k p := by
  constructor
  · refine fun hon => ⟨H.freeBlock hon, fun j q hq hsub => ?_⟩
    obtain ⟨i, r, hon', hle, hsub'⟩ := H.covered hs j q hq
    have heq : (p, k) = (r, i) := by
      by_contra hne
      exact H.blocks k i p r hon hon' hne p (left_mem_block p k) (hsub' (hsub (left_mem_block p k)))
    obtain ⟨rfl, rfl⟩ := Prod.mk.inj heq
    have hcard := Finset.card_le_card hsub
    rw [card_block, card_block, Nat.pow_le_pow_iff_right (by omega)] at hcard
    obtain rfl : j = k := by omega
    exact ⟨rfl, block_left_eq hsub⟩
  · rintro ⟨hfree, hmax⟩
    obtain ⟨j, q, hon, -, hsub⟩ := H.covered hs k p hfree
    obtain ⟨rfl, rfl⟩ := hmax j q (H.freeBlock hon) hsub
    exact hon

end Inv

/-! ## Runs -/

/-- **There are never two free buddies.** -/
theorem Reach.coalesced (h : Reach npage s zs A) : InArray npage zs → s.Coalesced zs := by
  induction h with
  | init _ _ => exact fun _ z hz => absurd hz List.not_mem_nil
  | memmap h hok hrun ih =>
    intro harray
    obtain ⟨s', hs', -, hkeep⟩ := h.inv.buddyInitMemmap_spec hok.1 hok.2.1 hok.2.2.2
    rw [hrun, Except.ok.injEq] at hs'
    rw [hs']
    exact hkeep harray (ih fun z hz => harray z (List.mem_append_left _ hz))
  | alloc h hpos hn hrun ih =>
    intro harray
    rcases h.inv.buddyAllocPages_spec hpos hn with hnone | ⟨page, s', hs', -, -, -, hkeep⟩
    · rw [hrun] at hnone
      simp at hnone
    · rw [hrun, Except.ok.injEq, Prod.mk.injEq] at hs'
      rw [hs'.2]
      exact hkeep harray (ih harray)
  | allocFail h hpos hn hrun ih =>
    intro harray
    rcases h.inv.buddyAllocPages_spec hpos hn with hnone | ⟨page, s', hs', -⟩
    · rw [hrun, Except.ok.injEq, Prod.mk.injEq] at hnone
      rw [hnone.2]
      exact ih harray
    · rw [hrun] at hs'
      simp at hs'
  | free h hok hrun ih =>
    intro harray
    obtain ⟨z, hargs⟩ := hok.args
    obtain ⟨s', hs', -, hkeep⟩ := h.inv.buddyFreePages_spec hargs hok.1
    rw [hrun, Except.ok.injEq] at hs'
    rw [hs']
    exact hkeep harray (ih harray)
  | own _ _ hown ih =>
    intro harray
    refine (ih harray).mono fun k p hp => ?_
    rw [hown.1] at hp
    exact hp

/-- The same blocks are free. -/
def SameBlocks (s s' : Buddy) : Prop := ∀ k p, s.OnList k p ↔ s'.OnList k p

/-- **The free blocks do not depend on the run**, only on the zones and the allocated pages. -/
theorem Reach.sameBlocks (h : Reach npage s zs A) (harray : InArray npage zs) {s' : Buddy}
    {zs' : List Zone} (h' : Reach npage s' zs' A) (hzs : ∀ z, z ∈ zs ↔ z ∈ zs') :
    SameBlocks s s' := by
  intro k p
  have harray' : InArray npage zs' := fun z hz => harray z ((hzs z).2 hz)
  have hfree : ∀ j q, FreeBlock zs A j q ↔ FreeBlock zs' A j q := by
    intro j q
    simp only [FreeBlock, hzs]
  rw [h.inv.onList_iff (h.coalesced harray), h'.inv.onList_iff (h'.coalesced harray')]
  simp only [Maximal, hfree]

/-! ## Freeing in parts -/

/-- The pages of some ranges, each given by its first page and its length. -/
def rangePages : List (ℕ × ℕ) → Finset ℕ
  | [] => ∅
  | c :: l => Finset.Ico c.1 (c.1 + c.2) ∪ rangePages l

/-- The ranges may be freed one after the other. -/
def FreesOk (zs : List Zone) : Finset ℕ → List (ℕ × ℕ) → Prop
  | _, [] => True
  | A, c :: l => FreeOk zs A c.1 c.2 ∧ FreesOk zs (A \ Finset.Ico c.1 (c.1 + c.2)) l

/-- Free the ranges, one after the other. -/
def freeAll (npage : ℕ) (s : Buddy) (l : List (ℕ × ℕ)) : Res Buddy :=
  l.foldlM (fun s c => buddyFreePages npage s c.1 c.2) s

theorem Reach.freeAll (l : List (ℕ × ℕ)) : ∀ {s : Buddy} {A : Finset ℕ}, Reach npage s zs A →
    FreesOk zs A l → ∃ s', freeAll npage s l = .ok s' ∧ Reach npage s' zs (A \ rangePages l) := by
  induction l with
  | nil =>
    intro s A h _
    exact ⟨s, rfl, by rw [rangePages, Finset.sdiff_empty]; exact h⟩
  | cons c l ih =>
    intro s A h hok
    obtain ⟨z, hargs⟩ := hok.1.args
    obtain ⟨s₁, hrun, -⟩ := h.inv.buddyFreePages_spec hargs hok.1.1
    obtain ⟨s', hrun', h'⟩ := ih (h.free hok.1 hrun) hok.2
    refine ⟨s', ?_, ?_⟩
    · rw [Buddy.freeAll, List.foldlM_cons, hrun]
      exact hrun'
    · rw [rangePages, ← Finset.sup_eq_union, ← sdiff_sdiff_left]
      exact h'

end Buddy

/-- **Coalescing is canonical and does not depend on the history.**  No two buddies are both free.
Two runs with the same zones and the same allocated pages have the same free blocks, so that pages
may be freed in any order and in any parts, and freeing what an allocation has returned undoes
it. -/
theorem buddy_canonical {npage : ℕ} {s : Buddy} {zs : List Zone} {A : Finset ℕ}
    (h : Buddy.Reach npage s zs A) (harray : InArray npage zs) :
    s.Coalesced zs ∧
    (∀ s' zs', Buddy.Reach npage s' zs' A → (∀ z, z ∈ zs ↔ z ∈ zs') → Buddy.SameBlocks s s') ∧
    (∀ l l', Buddy.FreesOk zs A l → Buddy.FreesOk zs A l' →
      Buddy.rangePages l = Buddy.rangePages l' →
      ∃ s₁ s₂, Buddy.freeAll npage s l = .ok s₁ ∧ Buddy.freeAll npage s l' = .ok s₂ ∧
        Buddy.SameBlocks s₁ s₂) ∧
    ∀ n page s', 0 < n → n ≤ 2 ^ maxOrder → buddyAllocPages npage s n = .ok (some page, s') →
      Buddy.FreeOk zs (A ∪ Finset.Ico page (page + n)) page n ∧
      ∀ l, Buddy.FreesOk zs (A ∪ Finset.Ico page (page + n)) l →
        Buddy.rangePages l = Finset.Ico page (page + n) →
        ∃ s'', Buddy.freeAll npage s' l = .ok s'' ∧ Buddy.SameBlocks s s'' := by
  refine ⟨h.coalesced harray, fun s' zs' h' hzs => h.sameBlocks harray h' hzs, ?_, ?_⟩
  · intro l l' hl hl' heq
    obtain ⟨s₁, hrun₁, h₁⟩ := h.freeAll l hl
    obtain ⟨s₂, hrun₂, h₂⟩ := h.freeAll l' hl'
    rw [heq] at h₁
    exact ⟨s₁, s₂, hrun₁, hrun₂, h₁.sameBlocks harray h₂ fun _ => Iff.rfl⟩
  · intro n page s' hpos hn hrun
    rcases h.inv.buddyAllocPages_spec hpos hn with hnone | ⟨page', s₁, hs₁, -, hzone, hnew, -⟩
    · rw [hrun] at hnone
      simp at hnone
    · rw [hrun, Except.ok.injEq, Prod.mk.injEq, Option.some_inj] at hs₁
      obtain ⟨rfl, rfl⟩ := hs₁
      have hlt : 2 ^ maxOrder < 2 ^ (maxOrder + 1) := Nat.pow_lt_pow_right (by omega) (by omega)
      refine ⟨⟨hpos, by omega, Finset.subset_union_right, hzone⟩, fun l hl heq => ?_⟩
      obtain ⟨s'', hrun', h''⟩ := (h.alloc hpos hn hrun).freeAll l hl
      have hA : (A ∪ Finset.Ico page (page + n)) \ Buddy.rangePages l = A := by
        rw [heq]
        exact Finset.union_sdiff_cancel_right (Finset.disjoint_right.2 hnew)
      rw [hA] at h''
      exact ⟨s'', hrun', h.sameBlocks harray h'' fun _ => Iff.rfl⟩

/-- Three of eight pages are allocated and freed again, in two parts. -/
theorem buddy_canonical_eightPages : ∃ s A, Buddy.Reach 8 s [⟨0, 8⟩] A ∧
    A = Finset.Ico 0 3 ∧ s.Coalesced [⟨0, 8⟩] ∧
    ∃ s₁ s₂, Buddy.freeAll 8 s [(0, 3)] = .ok s₁ ∧ Buddy.freeAll 8 s [(1, 2), (0, 1)] = .ok s₂ ∧
      Buddy.SameBlocks s₁ s₂ := by
  have h₀ : Buddy.Reach 8 (buddyInit eightPages) [] ∅ := .init rfl fun _ _ => rfl
  have hok : Buddy.MemmapOk (buddyInit eightPages) [] 0 8 :=
    ⟨by decide, by decide, by decide, fun _ _ => rfl⟩
  have h₁ := h₀.memmap hok rfl
  have h₂ : Buddy.Reach 8 _ [⟨0, 8⟩] (∅ ∪ Finset.Ico 0 (0 + 3)) :=
    h₁.alloc (by decide) (by decide) rfl
  have harray : InArray 8 [⟨0, 8⟩] := by
    intro z hz
    rw [List.mem_singleton.1 hz]
    decide
  obtain ⟨hcoal, -, hfree, -⟩ := buddy_canonical h₂ harray
  have hzone : ∀ base n, base + n ≤ 8 → ∃ z ∈ [(⟨0, 8⟩ : Zone)], z.base ≤ base ∧
      base + n ≤ z.base + z.len := fun base n h =>
        ⟨⟨0, 8⟩, List.mem_singleton_self _, Nat.zero_le _, by
    show base + n ≤ 0 + 8
    omega⟩
  refine ⟨_, _, h₂, by decide, hcoal, hfree [(0, 3)] [(1, 2), (0, 1)] ?_ ?_ (by decide)⟩
  · exact ⟨⟨by decide, by decide, by decide, hzone 0 3 (by omega)⟩, trivial⟩
  · exact ⟨⟨by decide, by decide, by decide, hzone 1 2 (by omega)⟩,
      ⟨by decide, by decide, by decide, hzone 0 1 (by omega)⟩, trivial⟩

end Ucore
