import Ucore.Buddy.Defs
import Ucore.Lib.Dyadic
import Mathlib.Data.Finset.Card

/-!
# The representation invariant of the buddy allocator

`Buddy.Inv npage zs A s` says that the allocator state `s` describes the zones `zs` with exactly the
pages of `A` allocated: the free lists hold pairwise disjoint dyadic blocks inside the zones, the
blocks cover the pages that are not in `A`, and the page descriptors agree with the lists.

A block that has been taken off its list and not been put anywhere else counts as allocated.  With
this reading every intermediate state of the code satisfies the invariant too, for a suitable `A`,
and there are only three things a state can be changed by:

* `Inv.touch` — the descriptors of allocated pages change;
* `Inv.remove` — a block is taken off its list, and its pages become allocated;
* `Inv.add` — a block of allocated pages is put on a list.

So the proofs about the functions never have to look at the invariant from inside: each of them says
which of the three a line is, and for which block.  A block is given by its order and its first
page, and `Zone.Fits` says that it is aligned relative to the beginning of its zone, since this is
what the indexes in the code count from.

That no two buddies are both free is not a part of the invariant, because it is not true while
blocks are merged or split.  It is `Buddy.Coalesced`, and it is carried along by implications
(`KeepsCoalesced`).  A block may be put on a list if its buddy is not free (`coalesced_add`), and
taking blocks away does no harm (`Buddy.Coalesced.mono`).
-/

set_option autoImplicit false

namespace Ucore

/-- The pages that one call of `buddy_init_memmap` hands to the allocator. -/
structure Zone where
  base : ℕ
  len : ℕ
  deriving DecidableEq, Repr

/-- The pages of a zone. -/
def Zone.pages (z : Zone) : Finset ℕ := Finset.Ico z.base (z.base + z.len)

@[simp] theorem Zone.mem_pages {z : Zone} {x : ℕ} :
    x ∈ z.pages ↔ z.base ≤ x ∧ x < z.base + z.len := Finset.mem_Ico

/-- The block of order `k` at `p` starts at a multiple of `2 ^ k` relative to the base of the zone
and lies inside of it. -/
structure Zone.Fits (z : Zone) (p k : ℕ) : Prop where
  base_le : z.base ≤ p
  aligned : (p - z.base) % 2 ^ k = 0
  le_end : p + 2 ^ k ≤ z.base + z.len

theorem Zone.Fits.subset {z : Zone} {p k : ℕ} (h : z.Fits p k) {x : ℕ} (hx : x ∈ block p k) :
    x ∈ z.pages := by
  rw [mem_block] at hx
  rw [Zone.mem_pages]
  exact ⟨h.base_le.trans hx.1, hx.2.trans_le h.le_end⟩

/-- The block of order `k` at `p` is on its free list. -/
def Buddy.OnList (s : Buddy) (k p : ℕ) : Prop := k ≤ maxOrder ∧ p ∈ (s.freeArea k).freeList

/-- **The representation invariant.** -/
structure Buddy.Inv (npage : ℕ) (zs : List Zone) (A : Finset ℕ) (s : Buddy) : Prop where
  zoneNum : s.zoneNum = zs.length
  memBase : ∀ i z, zs[i]? = some z → s.memBase i = z.base
  inZone : ∀ i z, zs[i]? = some z → ∀ x ∈ z.pages,
    (s.page x).zoneNum = i ∧ (s.page x).flags.reserved = false
  outside : ∀ x < npage, (∀ z ∈ zs, x ∉ z.pages) → (s.page x).flags.reserved = true
  alloc : ∀ x ∈ A, ∃ z ∈ zs, x ∈ z.pages
  free : ∀ k p, s.OnList k p →
    (s.page p).flags.property = true ∧ (s.page p).property = k ∧ ∃ z ∈ zs, z.Fits p k
  nodup : ∀ k ≤ maxOrder, (s.freeArea k).freeList.Nodup
  blocks : ∀ k j p q, s.OnList k p → s.OnList j q → (p, k) ≠ (q, j) →
    ∀ x ∈ block p k, x ∉ block q j
  cover : ∀ z ∈ zs, ∀ x ∈ z.pages, x ∉ A ↔ ∃ k p, s.OnList k p ∧ x ∈ block p k
  flagged : ∀ z ∈ zs, ∀ x ∈ z.pages, (s.page x).flags.property = true → ∃ k, s.OnList k x
  count : ∀ k ≤ maxOrder, (s.freeArea k).nrFree = (s.freeArea k).freeList.length
  ref : ∀ z ∈ zs, ∀ x ∈ z.pages, x ∉ A → (s.page x).ref = 0

/-- The zones lie in the array of page descriptors. -/
def InArray (npage : ℕ) (zs : List Zone) : Prop := ∀ z ∈ zs, z.base + z.len ≤ npage

/-- **No two buddies are both free.** -/
def Buddy.Coalesced (zs : List Zone) (s : Buddy) : Prop := ∀ z ∈ zs, ∀ k < maxOrder, ∀ p,
  z.Fits p (k + 1) → ¬ (s.OnList k p ∧ s.OnList k (p + 2 ^ k))

/-- If there were no two free buddies before, then there are none now. -/
def Buddy.KeepsCoalesced (npage : ℕ) (zs : List Zone) (s s' : Buddy) : Prop :=
  InArray npage zs → s.Coalesced zs → s'.Coalesced zs

/-! ## What the primitive updates do -/

namespace Buddy

variable (s : Buddy) (p k : ℕ)

@[simp] theorem addBlock_zoneNum : (s.addBlock p k).zoneNum = s.zoneNum := rfl

@[simp] theorem addBlock_memBase : (s.addBlock p k).memBase = s.memBase := rfl

theorem addBlock_page : (s.addBlock p k).page = Function.update s.page p
    { s.page p with property := k, flags := { (s.page p).flags with property := true } } := by
  simp [addBlock, setProperty, setPageProperty, addNrFree, listAdd, setPage, setArea]

theorem addBlock_freeArea : (s.addBlock p k).freeArea = Function.update s.freeArea k
    ⟨p :: (s.freeArea k).freeList, (s.freeArea k).nrFree + 1⟩ := by
  simp [addBlock, setProperty, setPageProperty, addNrFree, listAdd, setPage, setArea]

/-- The three lines that take the block of order `k` at `p` off its free list. -/
def removeBlock : Buddy := ((s.addNrFree k (-1)).listDel p).clearPageProperty p

@[simp] theorem removeBlock_zoneNum : (s.removeBlock p k).zoneNum = s.zoneNum := rfl

@[simp] theorem removeBlock_memBase : (s.removeBlock p k).memBase = s.memBase := rfl

theorem removeBlock_page : (s.removeBlock p k).page = Function.update s.page p
    { s.page p with flags := { (s.page p).flags with property := false } } := rfl

theorem removeBlock_freeList (j : ℕ) :
    ((s.removeBlock p k).freeArea j).freeList = (s.freeArea j).freeList.erase p := by
  by_cases hj : j = k
  · subst hj
    simp [removeBlock, clearPageProperty, listDel, addNrFree, setPage, setArea]
  · simp [removeBlock, clearPageProperty, listDel, addNrFree, setPage, setArea, hj]

theorem removeBlock_nrFree (j : ℕ) : ((s.removeBlock p k).freeArea j).nrFree =
    if j = k then (s.freeArea j).nrFree - 1 else (s.freeArea j).nrFree := by
  by_cases hj : j = k
  · subst hj
    simp [removeBlock, clearPageProperty, listDel, addNrFree, setPage, setArea]
    rfl
  · simp [removeBlock, clearPageProperty, listDel, addNrFree, setPage, setArea, hj]

theorem addBlock_onList {j q : ℕ} (hk : k ≤ maxOrder) :
    (s.addBlock p k).OnList j q ↔ s.OnList j q ∨ j = k ∧ q = p := by
  rw [OnList, OnList, addBlock_freeArea]
  by_cases hj : j = k
  · subst hj
    rw [Function.update_self, List.mem_cons]
    tauto
  · rw [Function.update_of_ne hj]
    tauto

end Buddy

namespace Buddy.Inv

variable {npage : ℕ} {zs : List Zone} {A : Finset ℕ} {s : Buddy}

/-! ## First consequences -/

theorem onList_not_mem (H : s.Inv npage zs A) {k p x : ℕ} (hp : s.OnList k p)
    (hx : x ∈ block p k) : x ∉ A := by
  obtain ⟨z, hz, hfit⟩ := (H.free k p hp).2.2
  exact (H.cover z hz x (hfit.subset hx)).2 ⟨k, p, hp, hx⟩

/-- A page starts at most one free block. -/
theorem onList_unique (H : s.Inv npage zs A) {k j p : ℕ} (hk : s.OnList k p) (hj : s.OnList j p) :
    j = k := by
  by_contra hne
  exact H.blocks k j p p hk hj (fun h => hne (Prod.mk.inj h).2.symm) p (left_mem_block p k)
    (left_mem_block p j)

theorem property_of_alloc (H : s.Inv npage zs A) {x : ℕ} (hx : x ∈ A) :
    (s.page x).flags.property = false := by
  obtain ⟨z, hz, hxz⟩ := H.alloc x hx
  by_contra hflag
  obtain ⟨k, hk⟩ := H.flagged z hz x hxz (by simpa using hflag)
  exact H.onList_not_mem hk (left_mem_block x k) hx

theorem reserved_of_mem (H : s.Inv npage zs A) {z : Zone} (hz : z ∈ zs) {x : ℕ} (hx : x ∈ z.pages) :
    (s.page x).flags.reserved = false := by
  obtain ⟨i, hi⟩ := List.mem_iff_getElem?.1 hz
  exact (H.inZone i z hi x hx).2

/-- The zones are disjoint, because a page knows its zone. -/
theorem zone_unique (H : s.Inv npage zs A) {i j : ℕ} {z w : Zone} (hz : zs[i]? = some z)
    (hw : zs[j]? = some w) {x : ℕ} (hxz : x ∈ z.pages) (hxw : x ∈ w.pages) : i = j :=
  (H.inZone i z hz x hxz).1.symm.trans (H.inZone j w hw x hxw).1

/-! ## The three changes -/

/-- The descriptors of allocated pages belong to the client, as long as it leaves the zone and the
two flags the allocator relies on alone. -/
theorem touch (H : s.Inv npage zs A) {s' : Buddy} (harea : s'.freeArea = s.freeArea)
    (hbase : s'.memBase = s.memBase) (hnum : s'.zoneNum = s.zoneNum)
    (hout : ∀ x, x ∉ A → s'.page x = s.page x)
    (hin : ∀ x ∈ A, (s'.page x).zoneNum = (s.page x).zoneNum ∧
      (s'.page x).flags.reserved = false ∧ (s'.page x).flags.property = false) :
    s'.Inv npage zs A := by
  have hon : ∀ k p, s'.OnList k p ↔ s.OnList k p := fun k p => by
    rw [Buddy.OnList, Buddy.OnList, harea]
  have hpage : ∀ k p, s.OnList k p → s'.page p = s.page p := fun k p hp =>
    hout p (H.onList_not_mem hp (left_mem_block p k))
  refine ⟨hnum.trans H.zoneNum, ?_, ?_, ?_, H.alloc, ?_, ?_, ?_, ?_, ?_, ?_, ?_⟩
  · rw [hbase]
    exact H.memBase
  · intro i z hz x hx
    by_cases hA : x ∈ A
    · exact ⟨(hin x hA).1.trans (H.inZone i z hz x hx).1, (hin x hA).2.1⟩
    · rw [hout x hA]
      exact H.inZone i z hz x hx
  · intro x hx hz
    rw [hout x fun hA => ?_]
    · exact H.outside x hx hz
    · obtain ⟨z, hzs, hxz⟩ := H.alloc x hA
      exact hz z hzs hxz
  · intro k p hp
    rw [hon] at hp
    rw [hpage k p hp]
    exact H.free k p hp
  · rw [harea]
    exact H.nodup
  · intro k j p q hp hq
    rw [hon] at hp hq
    exact H.blocks k j p q hp hq
  · intro z hz x hx
    simp only [hon]
    exact H.cover z hz x hx
  · intro z hz x hx hflag
    by_cases hA : x ∈ A
    · rw [(hin x hA).2.2] at hflag
      exact absurd hflag (by simp)
    · rw [hout x hA] at hflag
      obtain ⟨k, hk⟩ := H.flagged z hz x hx hflag
      exact ⟨k, (hon k x).2 hk⟩
  · rw [harea]
    exact H.count
  · intro z hz x hx hA
    rw [hout x hA]
    exact H.ref z hz x hx hA

theorem removeBlock_onList (H : s.Inv npage zs A) {k p : ℕ} {j q : ℕ} :
    (s.removeBlock p k).OnList j q ↔ s.OnList j q ∧ q ≠ p := by
  rw [Buddy.OnList, Buddy.OnList, Buddy.removeBlock_freeList]
  constructor
  · rintro ⟨hj, hq⟩
    rw [(H.nodup j hj).mem_erase_iff] at hq
    exact ⟨⟨hj, hq.2⟩, hq.1⟩
  · rintro ⟨⟨hj, hq⟩, hne⟩
    exact ⟨hj, (H.nodup j hj).mem_erase_iff.2 ⟨hne, hq⟩⟩

/-- **A block is taken off its list.**  Its pages still have the reference count they had there. -/
theorem remove (H : s.Inv npage zs A) {k p : ℕ} (hp : s.OnList k p) :
    (s.removeBlock p k).Inv npage zs (A ∪ block p k) ∧
      ∀ x ∈ block p k, ((s.removeBlock p k).page x).ref = 0 := by
  obtain ⟨-, -, z₀, hz₀, hfit⟩ := H.free k p hp
  have hon : ∀ {j q}, (s.removeBlock p k).OnList j q ↔ s.OnList j q ∧ q ≠ p :=
    H.removeBlock_onList
  have hpage : ∀ x, x ≠ p → (s.removeBlock p k).page x = s.page x := fun x hx => by
    rw [Buddy.removeBlock_page, Function.update_of_ne hx]
  have hsame : ∀ x, ((s.removeBlock p k).page x).zoneNum = (s.page x).zoneNum ∧
      ((s.removeBlock p k).page x).flags.reserved = (s.page x).flags.reserved ∧
      ((s.removeBlock p k).page x).ref = (s.page x).ref := by
    intro x
    by_cases hx : x = p
    · subst hx
      rw [Buddy.removeBlock_page, Function.update_self]
      exact ⟨rfl, rfl, rfl⟩
    · rw [hpage x hx]
      exact ⟨rfl, rfl, rfl⟩
  refine ⟨⟨H.zoneNum, H.memBase, ?_, ?_, ?_, ?_, ?_, ?_, ?_, ?_, ?_, ?_⟩, ?_⟩
  · intro i z hz x hx
    rw [(hsame x).1, (hsame x).2.1]
    exact H.inZone i z hz x hx
  · intro x hx hz
    rw [(hsame x).2.1]
    exact H.outside x hx hz
  · intro x hx
    rcases Finset.mem_union.1 hx with hA | hb
    · exact H.alloc x hA
    · exact ⟨z₀, hz₀, hfit.subset hb⟩
  · intro j q hq
    obtain ⟨hq, hne⟩ := hon.1 hq
    rw [hpage q hne]
    exact H.free j q hq
  · intro j hj
    rw [Buddy.removeBlock_freeList]
    exact (H.nodup j hj).erase p
  · intro j i q r hq hr
    exact H.blocks j i q r (hon.1 hq).1 (hon.1 hr).1
  · intro z hz x hx
    rw [Finset.mem_union, not_or, H.cover z hz x hx]
    constructor
    · rintro ⟨⟨j, q, hq, hxq⟩, hxp⟩
      refine ⟨j, q, hon.2 ⟨hq, ?_⟩, hxq⟩
      rintro rfl
      rw [H.onList_unique hp hq] at hxq
      exact hxp hxq
    · rintro ⟨j, q, hq, hxq⟩
      obtain ⟨hq, hne⟩ := hon.1 hq
      exact ⟨⟨j, q, hq, hxq⟩, H.blocks j k q p hq hp (fun h => hne (Prod.mk.inj h).1) x hxq⟩
  · intro z hz x hx hflag
    by_cases hxp : x = p
    · subst hxp
      rw [Buddy.removeBlock_page, Function.update_self] at hflag
      exact absurd hflag (by simp)
    · rw [hpage x hxp] at hflag
      obtain ⟨j, hj⟩ := H.flagged z hz x hx hflag
      exact ⟨j, hon.2 ⟨hj, hxp⟩⟩
  · intro j hj
    rw [Buddy.removeBlock_freeList, Buddy.removeBlock_nrFree]
    by_cases hjk : j = k
    · subst hjk
      have hpos : 0 < (s.freeArea j).freeList.length := List.length_pos_of_mem hp.2
      rw [if_pos rfl, H.count j hj, List.length_erase_of_mem hp.2]
      omega
    · have hnot : p ∉ (s.freeArea j).freeList := fun hm => hjk (H.onList_unique hp ⟨hj, hm⟩)
      rw [if_neg hjk, H.count j hj, List.erase_of_not_mem hnot]
  · intro z hz x hx hA
    rw [(hsame x).2.2]
    exact H.ref z hz x hx fun h => hA (Finset.mem_union_left _ h)
  · intro x hx
    rw [(hsame x).2.2]
    exact H.ref z₀ hz₀ x (hfit.subset hx) (H.onList_not_mem hp hx)

/-- **A block of allocated pages is put on a list.** -/
theorem add (H : s.Inv npage zs A) {k p : ℕ} (hk : k ≤ maxOrder) {z₀ : Zone} (hz₀ : z₀ ∈ zs)
    (hfit : z₀.Fits p k) (hsub : block p k ⊆ A) (href : ∀ x ∈ block p k, (s.page x).ref = 0) :
    (s.addBlock p k).Inv npage zs (A \ block p k) := by
  have hpA : p ∈ A := hsub (left_mem_block p k)
  have hfresh : ∀ j, ¬ s.OnList j p := fun j hj => H.onList_not_mem hj (left_mem_block p j) hpA
  have hpage : ∀ x, x ≠ p → (s.addBlock p k).page x = s.page x := fun x hx => by
    rw [Buddy.addBlock_page, Function.update_of_ne hx]
  have hsame : ∀ x, ((s.addBlock p k).page x).zoneNum = (s.page x).zoneNum ∧
      ((s.addBlock p k).page x).flags.reserved = (s.page x).flags.reserved ∧
      ((s.addBlock p k).page x).ref = (s.page x).ref := by
    intro x
    by_cases hx : x = p
    · subst hx
      rw [Buddy.addBlock_page, Function.update_self]
      exact ⟨rfl, rfl, rfl⟩
    · rw [hpage x hx]
      exact ⟨rfl, rfl, rfl⟩
  have hon : ∀ j q, (s.addBlock p k).OnList j q ↔ s.OnList j q ∨ j = k ∧ q = p :=
    fun j q => s.addBlock_onList p k hk
  refine ⟨H.zoneNum, H.memBase, ?_, ?_, ?_, ?_, ?_, ?_, ?_, ?_, ?_, ?_⟩
  · intro i z hz x hx
    rw [(hsame x).1, (hsame x).2.1]
    exact H.inZone i z hz x hx
  · intro x hx hz
    rw [(hsame x).2.1]
    exact H.outside x hx hz
  · intro x hx
    exact H.alloc x (Finset.mem_sdiff.1 hx).1
  · intro j q hq
    rcases (hon j q).1 hq with hq' | ⟨rfl, rfl⟩
    · have hne : q ≠ p := fun h => hfresh j (h ▸ hq')
      rw [hpage q hne]
      exact H.free j q hq'
    · rw [Buddy.addBlock_page, Function.update_self]
      exact ⟨rfl, rfl, z₀, hz₀, hfit⟩
  · intro j hj
    rw [Buddy.addBlock_freeArea]
    by_cases hjk : j = k
    · subst hjk
      rw [Function.update_self]
      exact List.nodup_cons.2 ⟨fun hm => hfresh j ⟨hj, hm⟩, H.nodup j hj⟩
    · rw [Function.update_of_ne hjk]
      exact H.nodup j hj
  · intro j i q r hq hr hne x hx
    rcases (hon j q).1 hq with hq' | ⟨rfl, rfl⟩
    · rcases (hon i r).1 hr with hr' | ⟨rfl, rfl⟩
      · exact H.blocks j i q r hq' hr' hne x hx
      · exact fun hxr => H.onList_not_mem hq' hx (hsub hxr)
    · rcases (hon i r).1 hr with hr' | ⟨rfl, rfl⟩
      · exact fun hxr => H.onList_not_mem hr' hxr (hsub hx)
      · exact absurd rfl hne
  · intro z hz x hx
    rw [Finset.mem_sdiff, not_and_or, not_not, H.cover z hz x hx]
    simp only [hon]
    constructor
    · rintro (⟨j, q, hq, hxq⟩ | hxp)
      · exact ⟨j, q, .inl hq, hxq⟩
      · exact ⟨k, p, .inr ⟨rfl, rfl⟩, hxp⟩
    · rintro ⟨j, q, hq | ⟨rfl, rfl⟩, hxq⟩
      · exact .inl ⟨j, q, hq, hxq⟩
      · exact .inr hxq
  · intro z hz x hx hflag
    by_cases hxp : x = p
    · exact ⟨k, (hon k x).2 (.inr ⟨rfl, hxp⟩)⟩
    · rw [hpage x hxp] at hflag
      obtain ⟨j, hj⟩ := H.flagged z hz x hx hflag
      exact ⟨j, (hon j x).2 (.inl hj)⟩
  · intro j hj
    rw [Buddy.addBlock_freeArea]
    by_cases hjk : j = k
    · subst hjk
      rw [Function.update_self, H.count j hj, List.length_cons]
      push_cast
      rfl
    · rw [Function.update_of_ne hjk]
      exact H.count j hj
  · intro z hz x hx hA
    rw [(hsame x).2.2]
    rw [Finset.mem_sdiff, not_and_or, not_not] at hA
    rcases hA with hA | hb
    · exact H.ref z hz x hx hA
    · exact href x hb

/-! ## Free buddies -/

/-- A zone is known by any of its pages. -/
theorem zone_eq (H : s.Inv npage zs A) {z w : Zone} (hz : z ∈ zs) (hw : w ∈ zs) {x : ℕ}
    (hxz : x ∈ z.pages) (hxw : x ∈ w.pages) : z = w := by
  obtain ⟨i, hi⟩ := List.mem_iff_getElem?.1 hz
  obtain ⟨j, hj⟩ := List.mem_iff_getElem?.1 hw
  rw [H.zone_unique hi hj hxz hxw, hj, Option.some_inj] at hi
  exact hi.symm

/-- **A block is put on a list, and its buddy is not free.** -/
theorem coalesced_add (H : s.Inv npage zs A) (h : s.Coalesced zs) {k p : ℕ} (hk : k ≤ maxOrder)
    {z : Zone} (hz : z ∈ zs) (hfit : z.Fits p k)
    (hbuddy : k < maxOrder → ∀ q, z.Fits p (k + 1) ∧ q = p + 2 ^ k ∨ z.Fits q (k + 1) ∧
      p = q + 2 ^ k → ¬ s.OnList k q) : (s.addBlock p k).Coalesced zs := by
  rintro w hw j hj r hr ⟨hr₁, hr₂⟩
  have hpow := Nat.two_pow_pos j
  have hlast : r + 2 ^ j ∈ block r (j + 1) := by
    rw [mem_block, pow_succ]
    omega
  have hzw : ∀ {x}, x = p → x ∈ block r (j + 1) → w = z := fun hx hmem =>
    H.zone_eq hw hz (hr.subset hmem) (hx ▸ hfit.subset (left_mem_block p k))
  rcases (s.addBlock_onList p k hk).1 hr₁ with hold₁ | ⟨rfl, rfl⟩
  · rcases (s.addBlock_onList p k hk).1 hr₂ with hold₂ | ⟨rfl, hp⟩
    · exact h w hw j hj r hr ⟨hold₁, hold₂⟩
    · rw [hzw hp hlast] at hr
      exact hbuddy hj r (.inr ⟨hr, hp.symm⟩) hold₁
  · rcases (s.addBlock_onList r j hk).1 hr₂ with hold₂ | ⟨-, hp⟩
    · rw [hzw rfl (left_mem_block r (j + 1))] at hr
      exact hbuddy hj _ (.inl ⟨hr, rfl⟩) hold₂
    · omega

end Buddy.Inv

/-- Blocks that are taken away do no harm. -/
theorem Buddy.Coalesced.mono {zs : List Zone} {s s' : Buddy} (h : s.Coalesced zs)
    (hsub : ∀ k p, s'.OnList k p → s.OnList k p) : s'.Coalesced zs :=
  fun z hz k hk p hp hboth => h z hz k hk p hp ⟨hsub _ _ hboth.1, hsub _ _ hboth.2⟩

end Ucore
