import Ucore.Buddy.Client
import Ucore.Slab.Run

/-!
# The slab allocator as a client

The functions of `kern/mm/slab.c` once more, as clients of the page allocator.  Their state is
`Kmem` without its pages, which are now below the calls of `alloc_pages` and `free_pages`.  With the
pool below them they are the functions of `Slab.Defs` (`runs_kmalloc` and `runs_kfree`), so that
what holds of these for all scripts holds for any page allocator (`kmalloc_ok` and `kfree_ok`).

`Runs` relates a client to a computation on a `Kmem`, and there is a lemma about it for each
function, by the rules for binds and recursion.  The rule of `Ucore.Lib.Client` that turns
statements about all scripts into statements about the specification is `Client.ok_of_run`; for the
calls that give pages back it has to be shown that they give back what they were given.
-/

set_option autoImplicit false

namespace Ucore

namespace Slab

open Kmem PageCall

/-- A call of the slab allocator. -/
abbrev Caller (α : Type) := Client PageCall Ans α

namespace Caller

/-- `alloc_pages` -/
def allocPages (n : ℕ) : Caller (Option ℕ) := Client.send (A := Ans) (.alloc n)

/-- `free_pages` -/
def freePages (p n : ℕ) : Caller Unit := Client.send (A := Ans) (.free p n)

/-- `kmem_cache_slabmgmt` -/
def kmemCacheSlabmgmt (alloc : ℕ → Kmem → Caller (Option ℕ × Kmem)) (c page : ℕ) (s : Kmem) :
    Caller (Option ℕ × Kmem) := do
  let objp := page * pgSize
  let (slabp, s) ←
    if (slabCache c).offSlab then alloc (slabCache c).slabCachep s else pure (some objp, s)
  match slabp with
  | none => return (none, s)
  | some slabp =>
    return (some slabp, s.setSlab slabp
      (some ⟨objp + (slabCache c).offset, 0, (slabCache c).offset, 0, fun _ => 0⟩))

/-- `kmem_cache_grow`, with the `kmem_cache_alloc` that it calls. -/
def kmemCacheGrow (alloc : ℕ → Kmem → Caller (Option ℕ × Kmem)) (c : ℕ) (s : Kmem) :
    Caller (Bool × Kmem) := do
  match ← allocPages (1 <<< (slabCache c).pageOrder) with
  | none => return (false, s)
  | some page =>
    match ← kmemCacheSlabmgmt alloc c page s with
    | (none, s) =>
      freePages page (1 <<< (slabCache c).pageOrder)
      return (false, s)
    | (some slabp, s) =>
      let s ← Client.lift (initSlab c page slabp s)
      return (true, s)

/-- `kmem_cache_alloc` -/
def kmemCacheAlloc : ℕ → ℕ → Kmem → Caller (Option ℕ × Kmem)
  | 0, _, _ => .stop .fuel
  | fuel + 1, c, s =>
    match s.slabsNotfull c with
    | slabp :: _ => do
      let (objp, s) ← Client.lift (kmemCacheAllocOne c slabp s)
      return (some objp, s)
    | [] => do
      let (grown, s) ← kmemCacheGrow (kmemCacheAlloc fuel) c s
      if grown then kmemCacheAlloc fuel c s else return (none, s)

/-- `kmalloc` -/
def kmalloc (size : ℕ) (s : Kmem) : Caller (Option ℕ × Kmem) := do
  Client.lift (assert (size > 0))
  let order ← Client.lift (getorder size)
  if order > maxSizeOrder then return (none, s)
  else kmemCacheAlloc 3 (order - minSizeOrder) s

/-- `kmem_slab_destroy`, with the `kmem_cache_free` that it calls. -/
def kmemSlabDestroy (free : ℕ → ℕ → Kmem → Caller Kmem) (c slabp : ℕ) (s : Kmem) : Caller Kmem := do
  let slab ← Client.lift (s.getSlab slabp)
  let page := (slab.sMem - slab.offset) / pgSize
  let n := 1 <<< (slabCache c).pageOrder
  Client.lift (assert (∀ q ∈ Pages.range page n, s.pageSlab q = true))
  let s := (s.clearPages page n).setSlab slabp none
  freePages page n
  if (slabCache c).offSlab then free (slabCache c).slabCachep slabp s else return s

/-- `kmem_cache_free_one` -/
def kmemCacheFreeOne (free : ℕ → ℕ → Kmem → Caller Kmem) (c slabp objp : ℕ) (s : Kmem) :
    Caller Kmem := do
  let slab ← Client.lift (s.getSlab slabp)
  let objnr := (objp - slab.sMem) / (slabCache c).objsize
  let slab := { slab with
    bufctl := Function.update slab.bufctl objnr slab.free
    free := objnr
    inuse := slab.inuse - 1 }
  let s := s.setSlab slabp (some slab)
  if slab.inuse = 0 then kmemSlabDestroy free c slabp (s.listDel slabp)
  else if slab.inuse = (slabCache c).num - 1 then return (s.listDel slabp).addNotfull c slabp
  else return s

/-- `kmem_cache_free` -/
def kmemCacheFree : ℕ → ℕ → ℕ → Kmem → Caller Kmem
  | 0, _, _, _ => .stop .fuel
  | fuel + 1, c, objp, s =>
    let page := objp / pgSize
    if !s.pageSlab page then .stop .assertion
    else kmemCacheFreeOne (kmemCacheFree fuel) c (s.pageSlabp page) objp s

/-- `kfree` -/
def kfree (objp : ℕ) (s : Kmem) : Caller Kmem :=
  kmemCacheFree 2 (s.pageCache (objp / pgSize)) objp s

end Caller

/-- The same state, with these pages. -/
def Kmem.on (s : Kmem) (p : Pages) : Kmem := { s with pages := p }

/-! ## The pool below the calls -/

/-- With the pool `p` below it the client is `x`, where `g` puts its result together with the pages
that are left. -/
def Runs {α β : Type} (g : α → Pages → β) (f : Caller α) (p : Pages) (x : Res β) : Prop :=
  x = f.run pagesHandler p >>= fun r => .ok (g r.1 r.2)

/-- A result and a state. -/
def both {α : Type} (r : α × Kmem) (p : Pages) : α × Kmem := (r.1, r.2.on p)

section Rules

variable {α β γ δ : Type} {g : α → Pages → β} {g' : γ → Pages → δ} {p : Pages}

theorem Runs.pure (a : α) : Runs g (pure a) p (.ok (g a p)) := rfl

theorem Runs.bind {f : Caller α} {x : Res β} {k : α → Caller γ} {k' : β → Res δ}
    (hx : Runs g f p x) (hk : ∀ a p', Runs g' (k a) p' (k' (g a p'))) :
    Runs g' (f >>= k) p (x >>= k') := by
  rw [Runs] at hx
  rw [Runs, hx, Client.run_bind]
  cases f.run pagesHandler p with
  | error e => rfl
  | ok r => exact hk r.1 r.2

theorem Runs.lift {x : Res α} {k : α → Caller γ} {k' : α → Res δ}
    (hk : ∀ a, Runs g' (k a) p (k' a)) : Runs g' (Client.lift x >>= k) p (x >>= k') := by
  rw [Runs, Client.run_bind, Client.run_lift]
  cases x with
  | error e => rfl
  | ok a => exact hk a

theorem Runs.free {q n : ℕ} {k : Unit → Caller γ} {k' : Pages → Res δ}
    (hk : ∀ p', Runs g' (k ()) p' (k' p')) :
    Runs g' (Caller.freePages q n >>= k) p (p.free q n >>= k') := by
  rw [Runs, Client.run_bind, Caller.freePages, Client.run_send]
  change _ = ((p.free q n).map _ >>= _) >>= _
  cases p.free q n with
  | error e => rfl
  | ok p' => exact hk p'

theorem Runs.ite {c : Prop} [Decidable c] {f f' : Caller α} {x x' : Res β} (h : Runs g f p x)
    (h' : Runs g f' p x') : Runs g (if c then f else f') p (if c then x else x') := by
  split
  · exact h
  · exact h'

end Rules

theorem runs_slabmgmt {alloc : ℕ → Kmem → Caller (Option ℕ × Kmem)}
    {alloc' : ℕ → Kmem → Res (Option ℕ × Kmem)}
    (halloc : ∀ c s p, Runs both (alloc c s) p (alloc' c (s.on p))) (c page : ℕ) (s : Kmem)
    (p : Pages) : Runs both (Caller.kmemCacheSlabmgmt alloc c page s) p
      (kmemCacheSlabmgmt alloc' c page (s.on p)) := by
  rw [Caller.kmemCacheSlabmgmt, kmemCacheSlabmgmt]
  refine Runs.ite ((halloc _ s p).bind fun r p' => ?_) rfl
  obtain ⟨slabp, s'⟩ := r
  cases slabp <;> rfl

theorem initSlab_on (c page slabp : ℕ) (s : Kmem) (p : Pages) :
    initSlab c page slabp (s.on p) = (initSlab c page slabp s).map fun s => s.on p := by
  simp only [initSlab, Res.map_bind]
  rfl

theorem runs_grow {alloc : ℕ → Kmem → Caller (Option ℕ × Kmem)}
    {alloc' : ℕ → Kmem → Res (Option ℕ × Kmem)}
    (halloc : ∀ c s p, Runs both (alloc c s) p (alloc' c (s.on p))) (c : ℕ) (s : Kmem) (p : Pages) :
    Runs both (Caller.kmemCacheGrow alloc c s) p (kmemCacheGrow alloc' c (s.on p)) := by
  rw [Runs, Caller.kmemCacheGrow, kmemCacheGrow, Client.run_bind, Caller.allocPages,
    Client.run_send]
  change _ = (Except.ok (p.alloc _) >>= _) >>= _
  have hpages : (s.on p).pages = p := rfl
  rw [Res.ok_bind, hpages]
  cases hp : p.alloc (1 <<< (slabCache c).pageOrder) with
  | mk r p' =>
    cases r with
    | none => rfl
    | some page =>
      refine Runs.bind (runs_slabmgmt halloc c page s p') fun r p'' => ?_
      obtain ⟨slabp, s'⟩ := r
      cases slabp with
      | none => exact Runs.free fun p' => rfl
      | some slabp =>
        change Runs both _ p'' (initSlab c page slabp (s'.on p'') >>= _)
        rw [initSlab_on, Res.bind_map]
        exact Runs.lift fun s => rfl

theorem allocOne_on (c slabp : ℕ) (s : Kmem) (p : Pages) :
    kmemCacheAllocOne c slabp (s.on p) =
      (kmemCacheAllocOne c slabp s).map fun r => (r.1, r.2.on p) := by
  rw [kmemCacheAllocOne, kmemCacheAllocOne, Res.map_bind]
  refine Res.bind_congr fun slab => ?_
  dsimp only
  split <;> rfl

theorem runs_alloc (fuel c : ℕ) (s : Kmem) (p : Pages) :
    Runs both (Caller.kmemCacheAlloc fuel c s) p (kmemCacheAlloc fuel c (s.on p)) := by
  induction fuel generalizing c s p with
  | zero => rfl
  | succ fuel ih =>
    rw [Caller.kmemCacheAlloc, kmemCacheAlloc]
    change Runs both _ p (match s.slabsNotfull c with | slabp :: _ => _ | [] => _)
    cases s.slabsNotfull c with
    | cons slabp rest =>
      change Runs both _ p (kmemCacheAllocOne c slabp (s.on p) >>= _)
      rw [allocOne_on, Res.bind_map]
      exact Runs.lift fun r => rfl
    | nil =>
      refine Runs.bind (runs_grow ih c s p) fun r p' => ?_
      exact Runs.ite (ih c r.2 p') rfl

/-- **`kmalloc` with the pool below it.** -/
theorem runs_kmalloc (size : ℕ) (s : Kmem) (p : Pages) :
    Runs both (Caller.kmalloc size s) p (kmalloc size (s.on p)) := by
  refine Runs.lift fun _ => Runs.lift fun order => ?_
  exact Runs.ite rfl (runs_alloc 3 _ s p)

theorem runs_destroy {free : ℕ → ℕ → Kmem → Caller Kmem} {free' : ℕ → ℕ → Kmem → Res Kmem}
    (hfree : ∀ c o s p, Runs Kmem.on (free c o s) p (free' c o (s.on p))) (c slabp : ℕ) (s : Kmem)
    (p : Pages) : Runs Kmem.on (Caller.kmemSlabDestroy free c slabp s) p
      (kmemSlabDestroy free' c slabp (s.on p)) := by
  refine Runs.lift fun slab => Runs.lift fun _ => Runs.free fun p' => ?_
  exact Runs.ite (hfree _ _ _ p') rfl

theorem runs_freeOne {free : ℕ → ℕ → Kmem → Caller Kmem} {free' : ℕ → ℕ → Kmem → Res Kmem}
    (hfree : ∀ c o s p, Runs Kmem.on (free c o s) p (free' c o (s.on p))) (c slabp objp : ℕ)
    (s : Kmem) (p : Pages) : Runs Kmem.on (Caller.kmemCacheFreeOne free c slabp objp s) p
      (kmemCacheFreeOne free' c slabp objp (s.on p)) := by
  refine Runs.lift fun slab => Runs.ite (runs_destroy hfree _ _ _ p) ?_
  exact Runs.ite rfl rfl

theorem runs_free (fuel c objp : ℕ) (s : Kmem) (p : Pages) :
    Runs Kmem.on (Caller.kmemCacheFree fuel c objp s) p (kmemCacheFree fuel c objp (s.on p)) := by
  induction fuel generalizing c objp s p with
  | zero => rfl
  | succ fuel ih => exact Runs.ite rfl (runs_freeOne ih c _ objp s p)

/-- **`kfree` with the pool below it.** -/
theorem runs_kfree (objp : ℕ) (s : Kmem) (p : Pages) :
    Runs Kmem.on (Caller.kfree objp s) p (kfree objp (s.on p)) := runs_free 2 _ objp s p

/-! ## The sizes of the calls -/

theorem pagesOf_le (c : ℕ) : 0 < 1 <<< (slabCache c).pageOrder ∧
    1 <<< (slabCache c).pageOrder ≤ 2 ^ 5 := by
  by_cases hc : c < slabCacheNum
  · exact (show ∀ c < slabCacheNum, 0 < 1 <<< (slabCache c).pageOrder ∧
      1 <<< (slabCache c).pageOrder ≤ 2 ^ 5 by decide) c hc
  · have hlen : cacheTable.length ≤ c := Nat.le_of_not_lt hc
    rw [slabCache, List.getD_eq_default _ _ hlen]
    decide

theorem sized_alloc (c : ℕ) : Sized (.alloc (1 <<< (slabCache c).pageOrder)) :=
  ⟨(pagesOf_le c).1, (pagesOf_le c).2.trans (by decide)⟩

theorem sized_free (c page : ℕ) : Sized (.free page (1 <<< (slabCache c).pageOrder)) :=
  ⟨(pagesOf_le c).1, (pagesOf_le c).2.trans_lt (by decide)⟩

open Client in
theorem calls_grow {alloc : ℕ → Kmem → Caller (Option ℕ × Kmem)}
    (halloc : ∀ c s, (alloc c s).Calls Sized) (c : ℕ) (s : Kmem) :
    (Caller.kmemCacheGrow alloc c s).Calls Sized := by
  refine calls_bind (calls_send (sized_alloc c)) fun r => ?_
  cases r with
  | none => exact calls_pure _
  | some page =>
    have hmgmt : (Caller.kmemCacheSlabmgmt alloc c page s).Calls Sized := by
      rw [Caller.kmemCacheSlabmgmt]
      refine calls_ite (calls_bind (halloc _ s) fun r => ?_) trivial
      obtain ⟨slabp, s'⟩ := r
      cases slabp <;> exact calls_pure _
    refine calls_bind hmgmt fun r => ?_
    obtain ⟨slabp, s'⟩ := r
    cases slabp with
    | none => exact calls_bind (calls_send (sized_free c page)) fun _ => calls_pure _
    | some slabp => exact calls_bind (calls_lift _) fun _ => calls_pure _

open Client in
theorem calls_alloc (fuel c : ℕ) (s : Kmem) : (Caller.kmemCacheAlloc fuel c s).Calls Sized := by
  induction fuel generalizing c s with
  | zero => trivial
  | succ fuel ih =>
    rw [Caller.kmemCacheAlloc]
    cases s.slabsNotfull c with
    | cons slabp rest => exact calls_bind (calls_lift _) fun _ => calls_pure _
    | nil =>
      exact calls_bind (calls_grow ih c s) fun r => calls_ite (ih c r.2) (calls_pure _)

open Client in
theorem calls_kmalloc (size : ℕ) (s : Kmem) : (Caller.kmalloc size s).Calls Sized := by
  refine calls_bind (calls_lift _) fun _ => calls_bind (calls_lift _) fun order => ?_
  exact calls_ite (calls_pure _) (calls_alloc 3 _ s)

open Client in
theorem calls_free (fuel c objp : ℕ) (s : Kmem) :
    (Caller.kmemCacheFree fuel c objp s).Calls Sized := by
  induction fuel generalizing c objp s with
  | zero => trivial
  | succ fuel ih =>
    refine calls_ite trivial (calls_bind (calls_lift _) fun slab => calls_ite ?_ (calls_ite ?_ ?_))
    · refine calls_bind (calls_lift _) fun slab => calls_bind (calls_lift _) fun _ => ?_
      refine calls_bind (calls_send (sized_free c _)) fun _ => ?_
      exact calls_ite (ih _ _ _) (calls_pure _)
    · exact calls_pure _
    · exact calls_pure _

/-! ## Any page allocator -/

variable {F L O A : Finset ℕ} {sz : ℕ → ℕ} {size o : ℕ} {s : Kmem}

/-- What is below the slab allocator does not matter, only which pages are in use. -/
theorem Holds.on (h : Holds F L sz s O) {p : Pages} (hp : p.live = s.pages.live) :
    Holds F L sz (s.on p) O := by
  refine ⟨h.inv.withPages (fun q => ?_) h.inv.foreign, h.used, h.size⟩
  rw [hp]
  exact h.inv.live q

/-- The invariant, for the pages `A` in use. -/
def HoldsOn (F L : Finset ℕ) (sz : ℕ → ℕ) (s : Kmem) (A : Finset ℕ) : Prop :=
  ∃ O, Holds F L sz (s.on ⟨A, []⟩) O

theorem HoldsOn.on (h : HoldsOn F L sz s A) {p : Pages} (hp : p.live = A) :
    ∃ O, Holds F L sz (s.on p) O := by
  obtain ⟨O, hO⟩ := h
  exact ⟨O, hO.on (p := p) hp⟩

theorem Holds.holdsOn {p : Pages} (h : Holds F L sz (s.on p) O) : HoldsOn F L sz s p.live :=
  ⟨O, h.on (p := ⟨p.live, []⟩) rfl⟩

/-- What `kmalloc` may have done. -/
def Kmalloced (F L : Finset ℕ) (sz : ℕ → ℕ) (size : ℕ) (s : Kmem) (r : Option ℕ × Kmem)
    (A : Finset ℕ) : Prop :=
  match r.1 with
  | none => HoldsOn F L sz r.2 A
  | some o => ¬ Live L s o ∧ HoldsOn F (insert o L) (Function.update sz o size) r.2 A

/-- **`kmalloc` on any page allocator.** -/
theorem kmalloc_ok (h : HoldsOn F L sz s A) (hpos : 1 ≤ size) (hle : size ≤ 2 ^ maxSizeOrder) :
    (Caller.kmalloc size s).Ok (pagesSpec fun _ _ => True) (Kmalloced F L sz size s) A := by
  refine Client.ok_of_run (foretells_pages _) pages_pre fun p hp => ?_
  obtain ⟨O, hO⟩ := h.on hp
  have hruns := (runs_kmalloc size s p).symm
  rcases hO.kmalloc hpos hle with ⟨s', hs', H'⟩ | ⟨o, s', O', hs', ho, H'⟩
  · rw [hs'] at hruns
    obtain ⟨⟨⟨r, s₁⟩, p'⟩, hrun, heq⟩ := Res.bind_eq_ok.1 hruns
    rw [both, Except.ok.injEq, Prod.mk.injEq] at heq
    obtain ⟨rfl, rfl⟩ := heq
    exact ⟨_, p', hrun, H'.holdsOn⟩
  · rw [hs'] at hruns
    obtain ⟨⟨⟨r, s₁⟩, p'⟩, hrun, heq⟩ := Res.bind_eq_ok.1 hruns
    rw [both, Except.ok.injEq, Prod.mk.injEq] at heq
    obtain ⟨rfl, rfl⟩ := heq
    exact ⟨_, p', hrun, fun hlive => ho ((hO.live_iff o).1 hlive), H'.holdsOn⟩

/-- **`kfree` on any page allocator.** -/
theorem kfree_ok (h : HoldsOn F L sz s A) (ho : o ∈ L) :
    (Caller.kfree o s).Ok (pagesSpec fun _ _ => True) (HoldsOn F (L.erase o) sz) A := by
  refine Client.ok_of_run (foretells_pages _) pages_pre fun p hp => ?_
  obtain ⟨O, hO⟩ := h.on hp
  have hruns := (runs_kfree o s p).symm
  obtain ⟨s', O', hs', H'⟩ := hO.kfree ho
  rw [hs'] at hruns
  obtain ⟨⟨s₁, p'⟩, hrun, heq⟩ := Res.bind_eq_ok.1 hruns
  rw [Except.ok.injEq] at heq
  subst heq
  exact ⟨_, p', hrun, H'.holdsOn⟩

end Slab

end Ucore
