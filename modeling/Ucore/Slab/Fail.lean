import Ucore.Slab.Run

/-!
# A request that fails

A request for an object fails if there are no pages for a new slab, or if there is no object for its
`slab_t`.  In the second case the pages are given back.  Nothing else has happened by then
(`alloc_fail`), whatever state the request was made in.

`kmallocWithin` is `kmalloc` with two bounds, one on the number of times that `kmem_cache_alloc`
tries, and one on the depth of its recursion.  `kmalloc_atomic` says that two tries and one level
are enough.

* `grow_fail` — `kmem_cache_grow` gives the pages back if it has no `slab_t` for them.
* `alloc_ne_none` — if there is a slab with a free object, a request does not fail.  So the request
  that fails is one for a new slab, and after `kmem_cache_grow` has made one, the second try finds
  it (`grow_true`).
* `alloc_fail` — by induction on the fuel, as the request may be for the `slab_t` of another one.
* `within_eq` — the bounds, first for a cache that needs no other one (`within_inside`).
-/

set_option autoImplicit false

namespace Ucore

namespace Slab

open Kmem

/-! ## Bounds -/

/-- The loop of `kmem_cache_alloc`, with a bound on the number of tries.  `nested` is the
`kmem_cache_alloc` that the request for a `slab_t` goes to. -/
def tryAgain (nested : ℕ → Kmem → Res (Option ℕ × Kmem)) : ℕ → ℕ → Kmem → Res (Option ℕ × Kmem)
  | 0, _, _ => .error .fuel
  | tries + 1, c, s =>
    match s.slabsNotfull c with
    | slabp :: _ => do
      let (objp, s) ← kmemCacheAllocOne c slabp s
      return (some objp, s)
    | [] => do
      let (grown, s) ← kmemCacheGrow nested c s
      if grown then tryAgain nested tries c s else return (none, s)

/-- `kmem_cache_alloc`, with a bound on the depth of the recursion as well. -/
def kmemCacheAllocWithin (tries : ℕ) : ℕ → ℕ → Kmem → Res (Option ℕ × Kmem)
  | 0 => tryAgain (fun _ _ => .error .fuel) tries
  | depth + 1 => tryAgain (kmemCacheAllocWithin tries depth) tries

/-- `kmalloc`, with both bounds. -/
def kmallocWithin (tries depth size : ℕ) (s : Kmem) : Res (Option ℕ × Kmem) := do
  assert (size > 0)
  let order ← getorder size
  if order > maxSizeOrder then return (none, s)
  else kmemCacheAllocWithin tries depth (order - minSizeOrder) s

variable {F O : Finset ℕ} {e : Option ℕ} {s : Kmem} {c : ℕ}
  {alloc nested : ℕ → Kmem → Res (Option ℕ × Kmem)}

/-- `kmem_cache_grow` makes no other use of the `kmem_cache_alloc` that it calls. -/
theorem grow_congr (h : (slabCache c).offSlab = true → ∀ page pages,
      s.pages.alloc (1 <<< (slabCache c).pageOrder) = (some page, pages) →
      alloc (slabCache c).slabCachep { s with pages := pages } =
        nested (slabCache c).slabCachep { s with pages := pages }) :
    kmemCacheGrow alloc c s = kmemCacheGrow nested c s := by
  rw [kmemCacheGrow, kmemCacheGrow]
  rcases hp : s.pages.alloc (1 <<< (slabCache c).pageOrder) with ⟨_ | page, pages⟩
  · rfl
  · simp only [kmemCacheSlabmgmt]
    cases hoffs : (slabCache c).offSlab with
    | false => rfl
    | true => simp only [if_true, h hoffs page pages hp]

/-- If a slab has been made, the second try finds it. -/
theorem tryAgain_eq {fuel : ℕ}
    (hgrow : Grown F O c s (kmemCacheGrow (kmemCacheAlloc (fuel + 1)) c s))
    (heq : kmemCacheGrow nested c s = kmemCacheGrow (kmemCacheAlloc (fuel + 1)) c s) :
    tryAgain nested 2 c s = kmemCacheAlloc (fuel + 2) c s := by
  rw [tryAgain, kmemCacheAlloc, heq]
  cases s.slabsNotfull c with
  | cons a rest => rfl
  | nil =>
    rcases hgrow with ⟨s', hrun, -⟩ | ⟨a, rest, s', O', hrun, -, -, hlist, -⟩
    · simp only [hrun, Res.ok_bind, Bool.false_eq_true, if_false]
    · simp only [hrun, Res.ok_bind, if_true]
      rw [tryAgain, kmemCacheAlloc, hlist]

/-- A cache that needs no other one. -/
theorem within_inside (H : Inv F O none s) (hc : c < slabCacheNum)
    (hin : (slabCache c).offSlab = false) (fuel : ℕ) :
    kmemCacheAllocWithin 2 0 c s = kmemCacheAlloc (fuel + 2) c s := by
  have hno : (slabCache c).offSlab ≠ true := by
    rw [hin]
    exact Bool.false_ne_true
  rw [kmemCacheAllocWithin]
  exact tryAgain_eq (grow_spec H hc fun h => absurd h hno) (grow_congr fun h => absurd h hno)

/-- **Two tries at each of two levels are enough for `kmem_cache_alloc`.** -/
theorem within_eq (H : Inv F O none s) (hc : c < slabCacheNum) :
    kmemCacheAllocWithin 2 1 c s = kmemCacheAlloc 3 c s := by
  have hnested : (slabCache c).offSlab = true → ∀ F' s₁, Inv F' O none s₁ →
      kmemCacheAllocWithin 2 0 (slabCache c).slabCachep s₁ =
        kmemCacheAlloc 2 (slabCache c).slabCachep s₁ := by
    intro hoffs F' s₁ H₁
    obtain ⟨hk, hin, -⟩ := (cacheOk hc).outside hoffs
    exact within_inside H₁ hk hin 0
  rw [kmemCacheAllocWithin]
  refine tryAgain_eq (grow_spec H hc fun hoffs F' s₁ H₁ => ?_)
    (grow_congr fun hoffs page pages hp => ?_)
  · obtain ⟨hk, hin, -⟩ := (cacheOk hc).outside hoffs
    refine alloc_of_grow H₁ (grow_spec H₁ hk fun h => ?_)
    rw [hin] at h
    exact absurd h Bool.false_ne_true
  · -- the invariant holds with the pages that are in no slab yet
    rcases H.allocPages (pagesOf c) with ⟨pages', hp', -⟩ | ⟨p, pages', hp', -, H₁⟩
    · rw [pagesOf, hp] at hp'
      simp at hp'
    · rw [pagesOf, hp, Prod.mk.injEq] at hp'
      exact hnested hoffs _ _ (hp'.2 ▸ H₁)

/-! ## Failure -/

/-- Nothing has changed, except that some requests for pages have been made. -/
def Kept (s s' : Kmem) : Prop := ∃ script, s' = { s with pages := ⟨s.pages.live, script⟩ }

/-- A slab that has been made is on the list. -/
theorem grow_true {s' : Kmem} (h : kmemCacheGrow alloc c s = .ok (true, s')) :
    s'.slabsNotfull c ≠ [] := by
  rw [kmemCacheGrow] at h
  rcases hp : s.pages.alloc (1 <<< (slabCache c).pageOrder) with ⟨_ | page, pages⟩
  · simp [hp] at h
  · simp only [hp] at h
    obtain ⟨⟨_ | slabp, s₁⟩, -, h⟩ := Res.bind_eq_ok.1 h
    · obtain ⟨pages', -, h⟩ := Res.bind_eq_ok.1 h
      simp at h
    · obtain ⟨s₂, hinit, h⟩ := Res.bind_eq_ok.1 h
      simp only [Res.pure_eq, Except.ok.injEq, Prod.mk.injEq, true_and] at h
      subst h
      rw [initSlab, Res.bind_eq_ok] at hinit
      obtain ⟨slab, -, hinit⟩ := hinit
      rw [Res.pure_eq, Except.ok.injEq] at hinit
      rw [← hinit, addNotfull]
      simp only [Function.update_self]
      exact List.cons_ne_nil _ _

/-- `kmem_cache_grow` gives the pages back if it has no `slab_t` for them. -/
theorem grow_fail (halloc : ∀ k s s', alloc k s = .ok (none, s') → Kept s s') {s' : Kmem}
    (h : kmemCacheGrow alloc c s = .ok (false, s')) : Kept s s' := by
  rw [kmemCacheGrow] at h
  rcases s.pages.alloc_cases (1 <<< (slabCache c).pageOrder) with
    ⟨rest, hp⟩ | ⟨p, rest, hdisj, hp⟩
  · simp only [hp, Except.ok.injEq, Prod.mk.injEq, true_and] at h
    exact ⟨rest, h.symm⟩
  · simp only [hp] at h
    obtain ⟨⟨_ | slabp, s₁⟩, hmgmt, h⟩ := Res.bind_eq_ok.1 h
    · obtain ⟨pages', hfree, h⟩ := Res.bind_eq_ok.1 h
      simp only [Res.pure_eq, Except.ok.injEq, Prod.mk.injEq, true_and] at h
      subst h
      -- there was no object for the `slab_t`
      rw [kmemCacheSlabmgmt] at hmgmt
      split at hmgmt
      · obtain ⟨⟨_ | slabp, s₂⟩, hctl, hmgmt⟩ := Res.bind_eq_ok.1 hmgmt
        · simp only [Res.pure_eq, Except.ok.injEq, Prod.mk.injEq, true_and] at hmgmt
          subst hmgmt
          obtain ⟨script, rfl⟩ := halloc _ _ _ hctl
          rw [Pages.free] at hfree
          split at hfree
          · rw [Except.ok.injEq] at hfree
            refine ⟨script, ?_⟩
            rw [← hfree]
            simp only [Finset.union_sdiff_cancel_right hdisj.symm]
          · simp at hfree
        · simp at hmgmt
      · simp at hmgmt
    · obtain ⟨s₂, -, h⟩ := Res.bind_eq_ok.1 h
      simp at h

/-- `kmem_cache_alloc` takes an object if there is a slab that has one. -/
theorem alloc_ne_none {fuel : ℕ} {s' : Kmem} (hlist : s.slabsNotfull c ≠ []) :
    kmemCacheAlloc fuel c s ≠ .ok (none, s') := by
  intro h
  obtain _ | fuel := fuel
  · simp [kmemCacheAlloc] at h
  · rw [kmemCacheAlloc] at h
    cases hl : s.slabsNotfull c with
    | nil => exact hlist hl
    | cons slabp rest =>
      simp only [hl] at h
      obtain ⟨r, -, h⟩ := Res.bind_eq_ok.1 h
      simp at h

/-- **A call of `kmem_cache_alloc` that fails changes nothing**, by induction on the fuel: the
request for a `slab_t` is a call with less of it. -/
theorem alloc_fail (fuel : ℕ) : ∀ (c : ℕ) (s s' : Kmem),
    kmemCacheAlloc fuel c s = .ok (none, s') → Kept s s' := by
  induction fuel with
  | zero =>
    intro c s s' h
    simp [kmemCacheAlloc] at h
  | succ fuel ih =>
    intro c s s' h
    by_cases hlist : s.slabsNotfull c = []
    · rw [kmemCacheAlloc, hlist] at h
      simp only at h
      obtain ⟨⟨grown, s₁⟩, hgrow, h⟩ := Res.bind_eq_ok.1 h
      cases grown with
      | false =>
        simp only [Bool.false_eq_true, if_false, Res.pure_eq, Except.ok.injEq, Prod.mk.injEq,
          true_and] at h
        subst h
        exact grow_fail ih hgrow
      | true =>
        simp only [if_true] at h
        exact absurd h (alloc_ne_none (grow_true hgrow))
    · exact absurd h (alloc_ne_none hlist)

/-- **A failing `kmalloc` changes nothing, and every `kmalloc` terminates.**  In every state of
every run, with any pattern of failures of `alloc_pages`: `kmem_cache_alloc` tries twice at most,
and its recursion is at most one level deep, since with these bounds `kmalloc` returns what it
returns without them.  If this is a null pointer, the lists, the slabs with their counts and their
chains of free objects, the marks of the pages and the set of the pages in use are as before. -/
theorem kmalloc_atomic {s₀ : Kmem} {L : Finset ℕ} {sz : ℕ → ℕ} (h : Reach s₀ s L sz) {size : ℕ}
    (hpos : 1 ≤ size) (hle : size ≤ 2 ^ maxSizeOrder) :
    ∃ r s', kmalloc size s = .ok (r, s') ∧ kmallocWithin 2 1 size s = .ok (r, s') ∧
      (r = none → s'.slabsFull = s.slabsFull ∧ s'.slabsNotfull = s.slabsNotfull ∧
        s'.slab = s.slab ∧ s'.pageSlab = s.pageSlab ∧ s'.pageCache = s.pageCache ∧
        s'.pageSlabp = s.pageSlabp ∧ s'.pages.live = s.pages.live) := by
  obtain ⟨O, H⟩ := h.holds
  obtain ⟨order, horder, hmax, hc, -⟩ := getorder_eq hle
  have hpos' : size > 0 := hpos
  have hrun : kmalloc size s = kmemCacheAlloc 3 (order - minSizeOrder) s := by
    rw [kmalloc, assert_pos hpos', Res.ok_bind, horder, Res.ok_bind, if_neg (not_lt.2 hmax)]
  have hwithin : kmallocWithin 2 1 size s = kmalloc size s := by
    rw [kmallocWithin, assert_pos hpos', Res.ok_bind, horder, Res.ok_bind, if_neg (not_lt.2 hmax),
      within_eq H.inv hc, hrun]
  obtain ⟨r, s', hret⟩ : ∃ r s', kmalloc size s = .ok (r, s') := by
    rcases H.kmalloc hpos hle with ⟨s', hret, -⟩ | ⟨o, s', O', hret, -⟩
    · exact ⟨_, _, hret⟩
    · exact ⟨_, _, hret⟩
  refine ⟨r, s', hret, hwithin.trans hret, ?_⟩
  rintro rfl
  obtain ⟨script, rfl⟩ := alloc_fail 3 _ _ _ (hrun.symm.trans hret)
  exact ⟨rfl, rfl, rfl, rfl, rfl, rfl, rfl⟩

/-- There is a page for the data, but none for the slab with the `slab_t`. -/
def onePage : Kmem := { twoPages with pages := ⟨{0}, [some 5, none]⟩ }

/-- The page is given back. -/
theorem kmalloc_atomic_onePage : Reach onePage onePage ∅ (fun _ => 0) ∧
    ∃ s', kmalloc 1000 onePage = .ok (none, s') ∧ s'.pages.script = [] ∧
      s'.slabsNotfull = onePage.slabsNotfull ∧ s'.pages.live = {0} := by
  have h : Reach onePage onePage ∅ (fun _ => 0) := .start ⟨fun _ => ⟨rfl, rfl⟩, fun _ => rfl⟩
  obtain ⟨s', hrun, hscript⟩ : ∃ s', kmalloc 1000 onePage = .ok (none, s') ∧
      s'.pages.script = [] := ⟨_, rfl, rfl⟩
  obtain ⟨r, s₁, hrun₁, -, hkept⟩ :=
    kmalloc_atomic h (show 1 ≤ 1000 by decide) (show 1000 ≤ 2 ^ maxSizeOrder by decide)
  rw [hrun, Except.ok.injEq, Prod.mk.injEq] at hrun₁
  obtain ⟨rfl, rfl⟩ := hrun₁
  obtain ⟨-, hlist, -, -, -, -, hlive⟩ := hkept rfl
  exact ⟨h, s', hrun, hscript, hlist, hlive⟩

end Slab

end Ucore
