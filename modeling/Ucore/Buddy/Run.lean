import Ucore.Buddy.Alloc
import Mathlib.Algebra.BigOperators.Ring.Finset

/-!
# Runs of the buddy allocator

`Buddy.Reach` describes what can happen to the allocator: zones are handed to it, pages are
allocated and freed, and whoever owns a page changes its descriptor.  The set `A` in it is the
specification, the set of the pages that are allocated; it is computed from the calls alone.  A call
that frees pages is allowed if these lie in one zone and are allocated (`FreeOk`), and one that adds
a zone if its pages are reserved and belong to no zone yet (`MemmapOk`).

* `Reach.inv` — every state of a run has the representation invariant, by induction on the run, with
  one lemma of `Ucore.Buddy.Alloc` or `Ucore.Buddy.Free` for each call.
* `buddyNrFreePages_eq` — `nr_free_pages`, which adds up `nr_free << order`, is the number of the
  free pages.  The blocks of one order are disjoint (`card_order`), and those of different orders
  too.
* `buddy_representation` — the main result: the free lists describe exactly the complement of `A`,
  and the calls that are allowed return.
-/

set_option autoImplicit false

namespace Ucore

/-- The pages of all zones. -/
def zonePages (zs : List Zone) : Finset ℕ := zs.toFinset.biUnion Zone.pages

theorem mem_zonePages {zs : List Zone} {x : ℕ} : x ∈ zonePages zs ↔ ∃ z ∈ zs, x ∈ z.pages := by
  rw [zonePages, Finset.mem_biUnion]
  simp only [List.mem_toFinset]

namespace Buddy

/-- What the owner of the page `p` may do to its descriptor. -/
def Owned (s s' : Buddy) (p : ℕ) : Prop :=
  s' = { s with page := Function.update s.page p (s'.page p) } ∧
    (s'.page p).zoneNum = (s.page p).zoneNum ∧
    (s'.page p).flags.reserved = (s.page p).flags.reserved ∧
    (s'.page p).flags.property = (s.page p).flags.property

/-- A call `buddy_free_pages(base, n)` is allowed: the pages lie in one zone and are allocated. -/
def FreeOk (zs : List Zone) (A : Finset ℕ) (base n : ℕ) : Prop :=
  0 < n ∧ n < 2 ^ (maxOrder + 1) ∧ Finset.Ico base (base + n) ⊆ A ∧
    ∃ z ∈ zs, z.base ≤ base ∧ base + n ≤ z.base + z.len

/-- A call `buddy_init_memmap(base, n)` is allowed: there is room for a zone, the pages belong to
no zone yet, and they are reserved. -/
def MemmapOk (s : Buddy) (zs : List Zone) (base n : ℕ) : Prop :=
  0 < n ∧ zs.length < maxZoneNum ∧ Disjoint (Finset.Ico base (base + n)) (zonePages zs) ∧
    ∀ x ∈ Finset.Ico base (base + n), (s.page x).flags.reserved = true

/-- The states that runs of the allocator lead to, with the zones and the set of the allocated
pages.  At the start all `npage` pages are reserved. -/
inductive Reach (npage : ℕ) : Buddy → List Zone → Finset ℕ → Prop
  | init {s : Buddy} (hzone : s.zoneNum = 0)
      (hres : ∀ x < npage, (s.page x).flags.reserved = true) : Reach npage (buddyInit s) [] ∅
  | memmap {s s' : Buddy} {zs : List Zone} {A : Finset ℕ} {base n : ℕ} :
      Reach npage s zs A → MemmapOk s zs base n → buddyInitMemmap s base n = .ok s' →
      Reach npage s' (zs ++ [⟨base, n⟩]) A
  | alloc {s s' : Buddy} {zs : List Zone} {A : Finset ℕ} {n page : ℕ} :
      Reach npage s zs A → 0 < n → n ≤ 2 ^ maxOrder →
      buddyAllocPages npage s n = .ok (some page, s') →
      Reach npage s' zs (A ∪ Finset.Ico page (page + n))
  | allocFail {s s' : Buddy} {zs : List Zone} {A : Finset ℕ} {n : ℕ} :
      Reach npage s zs A → 0 < n → n ≤ 2 ^ maxOrder →
      buddyAllocPages npage s n = .ok (none, s') → Reach npage s' zs A
  | free {s s' : Buddy} {zs : List Zone} {A : Finset ℕ} {base n : ℕ} :
      Reach npage s zs A → FreeOk zs A base n → buddyFreePages npage s base n = .ok s' →
      Reach npage s' zs (A \ Finset.Ico base (base + n))
  | own {s s' : Buddy} {zs : List Zone} {A : Finset ℕ} {p : ℕ} :
      Reach npage s zs A → p ∈ A → Owned s s' p → Reach npage s' zs A

variable {npage : ℕ} {zs : List Zone} {A : Finset ℕ} {s : Buddy}

theorem FreeOk.args {base n : ℕ} (h : FreeOk zs A base n) : ∃ z, Inv.FreeArgs zs A z base n := by
  obtain ⟨-, hlt, hsub, z, hz, hbase, hend⟩ := h
  exact ⟨z, hz, hbase, hend, hsub, hlt⟩

theorem Inv.init (hzone : s.zoneNum = 0) (hres : ∀ x < npage, (s.page x).flags.reserved = true) :
    (buddyInit s).Inv npage [] ∅ := by
  have harea : ∀ k ≤ maxOrder, (buddyInit s).freeArea k = ⟨[], 0⟩ := fun k hk => if_pos hk
  have hon : ∀ k p, ¬ (buddyInit s).OnList k p := fun k p h => by
    have hp := h.2
    rw [harea k h.1] at hp
    exact absurd hp List.not_mem_nil
  refine ⟨hzone, by simp, by simp, fun x hx _ => hres x hx, by simp, ?_, ?_, ?_, by simp, by simp,
    ?_, by simp⟩
  · exact fun k p h => absurd h (hon k p)
  · intro k hk
    rw [harea k hk]
    exact List.nodup_nil
  · exact fun k j p q h => absurd h (hon k p)
  · intro k hk
    rw [harea k hk]
    rfl

theorem Inv.own (H : s.Inv npage zs A) {s' : Buddy} {p : ℕ} (hp : p ∈ A) (h : Owned s s' p) :
    s'.Inv npage zs A := by
  obtain ⟨heq, hzone, hres, hprop⟩ := h
  have hpage : ∀ x, x ≠ p → s'.page x = s.page x := fun x hx => by
    rw [heq]
    exact Function.update_of_ne hx ..
  refine H.touch (by rw [heq]) (by rw [heq]) (by rw [heq]) ?_ ?_
  · intro x hx
    exact hpage x fun h => hx (h ▸ hp)
  · intro x hx
    obtain ⟨z, hz, hxz⟩ := H.alloc x hx
    by_cases hxp : x = p
    · subst hxp
      exact ⟨hzone, hres.trans (H.reserved_of_mem hz hxz), hprop.trans (H.property_of_alloc hx)⟩
    · rw [hpage x hxp]
      exact ⟨rfl, H.reserved_of_mem hz hxz, H.property_of_alloc hx⟩

/-- Every step of a run keeps the invariant, so that every run does. -/
theorem Reach.inv (h : Reach npage s zs A) : s.Inv npage zs A := by
  induction h with
  | init hzone hres => exact Inv.init hzone hres
  | memmap _ hok hrun H =>
    obtain ⟨s', hs', H', -⟩ := H.buddyInitMemmap_spec hok.1 hok.2.1 hok.2.2.2
    rw [hrun, Except.ok.injEq] at hs'
    rwa [hs']
  | alloc _ hpos hn hrun H =>
    rcases H.buddyAllocPages_spec hpos hn with hnone | ⟨page, s', hs', H', -⟩
    · rw [hrun] at hnone
      simp at hnone
    · rw [hrun, Except.ok.injEq, Prod.mk.injEq, Option.some_inj] at hs'
      rwa [hs'.1, hs'.2]
  | allocFail _ hpos hn hrun H =>
    rcases H.buddyAllocPages_spec hpos hn with hnone | ⟨page, s', hs', -⟩
    · rw [hrun, Except.ok.injEq, Prod.mk.injEq] at hnone
      rwa [hnone.2]
    · rw [hrun] at hs'
      simp at hs'
  | free _ hok hrun H =>
    obtain ⟨z, hargs⟩ := hok.args
    obtain ⟨s', hs', H', -⟩ := H.buddyFreePages_spec hargs hok.1
    rw [hrun, Except.ok.injEq] at hs'
    rwa [hs']
  | own _ hp hown H => exact H.own hp hown

/-! ## Counting the free pages -/

/-- The pages of the free blocks. -/
def freePages (s : Buddy) : Finset ℕ := (Finset.range (maxOrder + 1)).biUnion fun k =>
  (s.freeArea k).freeList.toFinset.biUnion fun p => block p k

theorem mem_freePages {x : ℕ} : x ∈ s.freePages ↔ ∃ k p, s.OnList k p ∧ x ∈ block p k := by
  simp only [freePages, Finset.mem_biUnion, Finset.mem_range, List.mem_toFinset, OnList,
    Nat.lt_succ_iff]
  constructor
  · rintro ⟨k, hk, p, hp, hx⟩
    exact ⟨k, p, ⟨hk, hp⟩, hx⟩
  · rintro ⟨k, p, ⟨hk, hp⟩, hx⟩
    exact ⟨k, hk, p, hp, hx⟩

namespace Inv

/-- The blocks on the lists make up exactly the pages of the zones that are not allocated. -/
theorem freePages_eq (H : s.Inv npage zs A) : s.freePages = zonePages zs \ A := by
  ext x
  rw [mem_freePages, Finset.mem_sdiff, mem_zonePages]
  constructor
  · rintro ⟨k, p, hp, hx⟩
    obtain ⟨-, -, z, hz, hfit⟩ := H.free k p hp
    exact ⟨⟨z, hz, hfit.subset hx⟩, H.onList_not_mem hp hx⟩
  · rintro ⟨⟨z, hz, hxz⟩, hA⟩
    exact (H.cover z hz x hxz).1 hA

/-- The blocks of one order are disjoint, and there are `nr_free` of them. -/
theorem card_order (H : s.Inv npage zs A) {k : ℕ} (hk : k ≤ maxOrder) :
    (((s.freeArea k).freeList.toFinset.biUnion fun p => block p k).card : ℤ) =
      (s.freeArea k).nrFree * 2 ^ k := by
  rw [Finset.card_biUnion]
  · rw [Finset.sum_const_nat fun p _ => card_block p k,
      List.toFinset_card_of_nodup (H.nodup k hk), H.count k hk]
    push_cast
    rfl
  · intro p hp q hq hne
    rw [Finset.mem_coe, List.mem_toFinset] at hp hq
    exact Finset.disjoint_left.2
      (H.blocks k k p q ⟨hk, hp⟩ ⟨hk, hq⟩ fun h => hne (Prod.mk.inj h).1)

/-- **`nr_free_pages` is the number of the free pages.** -/
theorem buddyNrFreePages_eq (H : s.Inv npage zs A) :
    buddyNrFreePages s = ((zonePages zs \ A).card : ℤ) := by
  rw [← H.freePages_eq, freePages, Finset.card_biUnion]
  · rw [Nat.cast_sum,
      Finset.sum_congr rfl fun k hk => H.card_order (Nat.lt_succ_iff.1 (Finset.mem_range.1 hk))]
    rfl
  · intro k hk j hj hne
    rw [Finset.mem_coe, Finset.mem_range, Nat.lt_succ_iff] at hk hj
    refine Finset.disjoint_left.2 fun x hx hx' => ?_
    rw [Finset.mem_biUnion] at hx hx'
    obtain ⟨p, hp, hxp⟩ := hx
    obtain ⟨q, hq, hxq⟩ := hx'
    rw [List.mem_toFinset] at hp hq
    exact H.blocks k j p q ⟨hk, hp⟩ ⟨hj, hq⟩ (fun h => hne (Prod.mk.inj h).2) x hxp hxq

end Inv

end Buddy

/-! ## The main result -/

/-- **The buddy allocator keeps its representation invariant.**  In every state that a run leads to
the blocks on the free lists are flagged with their order, aligned relative to the base of their
zone and inside of it; they are pairwise disjoint, and their union is the set of the zone pages that
are not allocated; no other zone page is flagged; the counters are the lengths of the lists, and
`nr_free_pages` is the number of the free pages; free pages have the reference count 0.  No
assertion fires in any call that is allowed next. -/
theorem buddy_representation {npage : ℕ} {s : Buddy} {zs : List Zone} {A : Finset ℕ}
    (h : Buddy.Reach npage s zs A) :
    (∀ k ≤ maxOrder, ∀ p ∈ (s.freeArea k).freeList,
      (s.page p).flags.property = true ∧ (s.page p).property = k ∧
      ∃ z ∈ zs, z.base ≤ p ∧ (p - z.base) % 2 ^ k = 0 ∧ p + 2 ^ k ≤ z.base + z.len) ∧
    (∀ k ≤ maxOrder, (s.freeArea k).freeList.Nodup) ∧
    (∀ k ≤ maxOrder, ∀ j ≤ maxOrder, ∀ p ∈ (s.freeArea k).freeList,
      ∀ q ∈ (s.freeArea j).freeList, (p, k) ≠ (q, j) → Disjoint (block p k) (block q j)) ∧
    (∀ x, (∃ k ≤ maxOrder, ∃ p ∈ (s.freeArea k).freeList, x ∈ block p k) ↔
      x ∈ zonePages zs ∧ x ∉ A) ∧
    (∀ x ∈ zonePages zs, (s.page x).flags.property = true →
      ∃ k ≤ maxOrder, x ∈ (s.freeArea k).freeList) ∧
    (∀ k ≤ maxOrder, (s.freeArea k).nrFree = (s.freeArea k).freeList.length) ∧
    buddyNrFreePages s = ((zonePages zs \ A).card : ℤ) ∧
    (∀ x ∈ zonePages zs, x ∉ A → (s.page x).ref = 0) ∧
    (∀ n, 0 < n → n ≤ 2 ^ maxOrder → ∃ r, buddyAllocPages npage s n = .ok r) ∧
    (∀ base n, Buddy.FreeOk zs A base n → ∃ s', buddyFreePages npage s base n = .ok s') ∧
    (∀ base n, Buddy.MemmapOk s zs base n → ∃ s', buddyInitMemmap s base n = .ok s') := by
  have H := h.inv
  refine ⟨?_, H.nodup, ?_, ?_, ?_, H.count, H.buddyNrFreePages_eq, ?_, ?_, ?_, ?_⟩
  · intro k hk p hp
    obtain ⟨hflag, hprop, z, hz, hfit⟩ := H.free k p ⟨hk, hp⟩
    exact ⟨hflag, hprop, z, hz, hfit.base_le, hfit.aligned, hfit.le_end⟩
  · intro k hk j hj p hp q hq hne
    exact Finset.disjoint_left.2 (H.blocks k j p q ⟨hk, hp⟩ ⟨hj, hq⟩ hne)
  · intro x
    rw [← Finset.mem_sdiff, ← H.freePages_eq, Buddy.mem_freePages]
    constructor
    · rintro ⟨k, hk, p, hp, hx⟩
      exact ⟨k, p, ⟨hk, hp⟩, hx⟩
    · rintro ⟨k, p, ⟨hk, hp⟩, hx⟩
      exact ⟨k, hk, p, hp, hx⟩
  · intro x hx hflag
    obtain ⟨z, hz, hxz⟩ := mem_zonePages.1 hx
    exact H.flagged z hz x hxz hflag
  · intro x hx hA
    obtain ⟨z, hz, hxz⟩ := mem_zonePages.1 hx
    exact H.ref z hz x hxz hA
  · intro n hpos hn
    rcases H.buddyAllocPages_spec hpos hn with hnone | ⟨page, s', hs', -⟩
    · exact ⟨_, hnone⟩
    · exact ⟨_, hs'⟩
  · intro base n hok
    obtain ⟨z, hargs⟩ := hok.args
    obtain ⟨s', hs', -⟩ := H.buddyFreePages_spec hargs hok.1
    exact ⟨s', hs'⟩
  · intro base n hok
    obtain ⟨s', hs', -⟩ := H.buddyInitMemmap_spec hok.1 hok.2.1 hok.2.2.2
    exact ⟨s', hs'⟩

/-- Eight reserved pages. -/
def eightPages : Buddy :=
  ⟨fun _ => ⟨0, { reserved := true }, 0, 0⟩, fun _ => ⟨[], 0⟩, fun _ => 0, 0⟩

/-- The eight pages are handed to the allocator, and three of them are allocated. -/
theorem buddy_representation_eightPages : ∃ s A, Buddy.Reach 8 s [⟨0, 8⟩] A ∧
    A = Finset.Ico 0 3 ∧ buddyNrFreePages s = 5 := by
  have h₀ : Buddy.Reach 8 (buddyInit eightPages) [] ∅ := .init rfl fun _ _ => rfl
  have hok : Buddy.MemmapOk (buddyInit eightPages) [] 0 8 :=
    ⟨by decide, by decide, by decide, fun _ _ => rfl⟩
  have h₁ := h₀.memmap hok rfl
  have h₂ : Buddy.Reach 8 _ [⟨0, 8⟩] (∅ ∪ Finset.Ico 0 (0 + 3)) :=
    h₁.alloc (by decide) (by decide) rfl
  exact ⟨_, _, h₂, by decide, (buddy_representation h₂).2.2.2.2.2.2.1.trans (by decide)⟩

end Ucore
