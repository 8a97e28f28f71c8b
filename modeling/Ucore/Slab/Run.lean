import Ucore.Slab.Free
import Mathlib.Data.Set.Card
import Mathlib.Algebra.BigOperators.Ring.Finset

/-!
# Runs of the slab allocator

`Reach s₀ s L sz` says that some calls of `kmalloc` and `kfree` lead from `s₀`, where there are no
slabs, to `s`.  The set `L` of the addresses that `kmalloc` has returned and that have not been
freed, and the sizes `sz` that were asked for, are computed from the calls alone.  What is in use in
`s` are these objects and those that hold the `slab_t` of a slab; `Live` puts the two together.

`slab_safe` is about every state of every run: no two things in it overlap, and the lists and the
pages tell the truth.  `slab_exact` is about the amount of memory: no page is kept for nothing.

* `Holds` is the invariant of a run: `Inv` without an empty slab, for the objects that are live.
  The steps are `Holds.kmalloc` and `Holds.kfree`, and `Reach.holds` is the induction.
* `bytes_disjoint`, `objBytes_disjoint` and `controlBytes_disjoint` — slabs, objects and control
  areas are ranges of bytes that do not overlap.
* `slabAllocated_eq` — `slab_allocated` is the size of all objects in use, cache by cache.
* `Holds.not_has` — if the callers have freed everything, there are no slabs.  A slab that is left
  has an object in use, which holds the `slab_t` of a slab with large objects.  That one has an
  object in use as well, but large objects never hold a `slab_t`.
-/

set_option autoImplicit false

namespace Ucore

namespace Slab

open Kmem

variable {F O : Finset ℕ} {e : Option ℕ} {s : Kmem} {c c' a a' : ℕ} {S S' : SlabT}

/-! ## Memory -/

/-- The memory of an object. -/
def objBytes (c o : ℕ) : Finset ℕ := Finset.Ico o (o + (slabCache c).objsize)

/-- The memory of a `slab_t` and the array that follows it. -/
def controlBytes (c a : ℕ) : Finset ℕ :=
  Finset.Ico a (a + (sizeofSlab + (slabCache c).num * sizeofBufctl))

/-- The memory of the pages of a slab. -/
def SlabT.bytes (S : SlabT) (c : ℕ) : Finset ℕ :=
  Finset.Ico (S.page * pgSize) ((S.page + pagesOf c) * pgSize)

theorem SlabT.mem_bytes {x : ℕ} : x ∈ S.bytes c ↔ x / pgSize ∈ S.pages c := by
  rw [bytes, Finset.mem_Ico, pages, Pages.mem_range, Nat.le_div_iff_mul_le (by decide),
    Nat.div_lt_iff_lt_mul (by decide)]

namespace Inv

theorem objBytes_subset (H : Inv F O e s) (hat : s.At c a S) {i : ℕ} (hi : i < (slabCache c).num) :
    objBytes c (S.obj c i) ⊆ S.bytes c := by
  obtain ⟨h1, h2⟩ := H.obj_bounds hat hi
  exact Finset.Ico_subset_Ico (by omega) h2

/-- **Slabs do not overlap.** -/
theorem bytes_disjoint (H : Inv F O e s) (hat : s.At c a S) (hat' : s.At c' a' S') (hne : a' ≠ a) :
    Disjoint (S.bytes c) (S'.bytes c') := by
  rw [Finset.disjoint_left]
  intro x hx hx'
  exact hne (H.at_unique hat hat' (SlabT.mem_bytes.1 hx) (SlabT.mem_bytes.1 hx')).2.1

/-- **Objects do not overlap.** -/
theorem objBytes_disjoint (H : Inv F O e s) {o o' : ℕ} (ho : s.IsObj c o) (ho' : s.IsObj c' o')
    (hne : o' ≠ o) : Disjoint (objBytes c o) (objBytes c' o') := by
  obtain ⟨a, S, i, hat, hi, rfl⟩ := ho
  obtain ⟨a', S', j, hat', hj, rfl⟩ := ho'
  by_cases ha : a' = a
  · subst ha
    obtain ⟨rfl, rfl⟩ := H.at_self hat hat'
    have hij : j ≠ i := fun h => hne (by rw [h])
    -- one of the two objects ends before the other one begins
    have hmul : ∀ {m n : ℕ}, m < n →
        m * (slabCache c').objsize + (slabCache c').objsize ≤ n * (slabCache c').objsize := by
      intro m n hmn
      rw [← Nat.succ_mul]
      exact Nat.mul_le_mul_right _ hmn
    rw [objBytes, objBytes, Finset.disjoint_left]
    intro x hx hx'
    rw [Finset.mem_Ico, SlabT.obj] at hx hx'
    rcases Nat.lt_or_gt_of_ne hij with h | h
    · have hle := hmul h
      omega
    · have hle := hmul h
      omega
  · exact (H.bytes_disjoint hat hat' ha).mono (H.objBytes_subset hat hi) (H.objBytes_subset hat' hj)

/-- **Objects that hold no `slab_t` do not overlap with one.** -/
theorem controlBytes_disjoint (H : Inv F O e s) {o : ℕ} (ho : s.IsObj c o) (hno : ¬ s.IsControl o)
    (hhas : s.Has c' a') : Disjoint (objBytes c o) (controlBytes c' a') := by
  obtain ⟨S', hS'⟩ := H.slab c' a' hhas
  have hat' : s.At c' a' S' := ⟨hhas, hS'⟩
  have hok := H.cacheOk hat'
  cases hoffs : (slabCache c').offSlab with
  | true =>
    have hne : a' ≠ o := by
      rintro rfl
      exact hno ⟨c', hhas, hoffs⟩
    have hsize := (hok.outside hoffs).2.2
    refine (H.objBytes_disjoint ho (H.control c' a' hhas hoffs).2 hne).mono_right ?_
    exact Finset.Ico_subset_Ico le_rfl (by omega)
  | false =>
    have hown := (H.placed c' a' S' hat').own hoffs
    have hinside := hok.inside hoffs
    obtain ⟨a, S, i, hat, hi, rfl⟩ := ho
    by_cases ha : a' = a
    · subst ha
      obtain ⟨rfl, rfl⟩ := H.at_self hat hat'
      have hbounds := (H.obj_bounds hat hi).1
      rw [objBytes, controlBytes, Finset.disjoint_left]
      intro x hx hx'
      rw [Finset.mem_Ico] at hx hx'
      omega
    · refine (H.bytes_disjoint hat hat' ha).mono (H.objBytes_subset hat hi) ?_
      have hroom := hok.room
      rw [controlBytes, SlabT.bytes, hown]
      refine Finset.Ico_subset_Ico le_rfl ?_
      rw [Nat.add_mul, pagesOf]
      omega

end Inv

/-! ## Runs -/

/-- There are no slabs. -/
def Start (s : Kmem) : Prop :=
  (∀ c, s.slabsFull c = [] ∧ s.slabsNotfull c = []) ∧ ∀ a, s.slab a = none

/-- The states that runs lead to, with the objects that have been handed out and the sizes that were
asked for. -/
inductive Reach (s₀ : Kmem) : Kmem → Finset ℕ → (ℕ → ℕ) → Prop
  | start (h : Start s₀) : Reach s₀ s₀ ∅ fun _ => 0
  | kmalloc {s s' : Kmem} {L : Finset ℕ} {sz : ℕ → ℕ} {size o : ℕ} : Reach s₀ s L sz → 1 ≤ size →
      size ≤ 2 ^ maxSizeOrder → kmalloc size s = .ok (some o, s') →
      Reach s₀ s' (insert o L) (Function.update sz o size)
  | kmallocFail {s s' : Kmem} {L : Finset ℕ} {sz : ℕ → ℕ} {size : ℕ} : Reach s₀ s L sz → 1 ≤ size →
      size ≤ 2 ^ maxSizeOrder → kmalloc size s = .ok (none, s') → Reach s₀ s' L sz
  | kfree {s s' : Kmem} {L : Finset ℕ} {sz : ℕ → ℕ} {o : ℕ} : Reach s₀ s L sz → o ∈ L →
      kfree o s = .ok s' → Reach s₀ s' (L.erase o) sz

/-- The invariant of a run. -/
structure Holds (F L : Finset ℕ) (sz : ℕ → ℕ) (s : Kmem) (O : Finset ℕ) : Prop where
  inv : Inv F O none s
  used : ∀ x, Used O s x ↔ x ∈ L
  size : ∀ o ∈ L, ∃ c, s.IsObj c o ∧ sz o ≤ (slabCache c).objsize

variable {L : Finset ℕ} {sz : ℕ → ℕ}

theorem Start.holds (h : Start s) (sz : ℕ → ℕ) : Holds s.pages.live ∅ sz s ∅ := by
  have hno : ∀ c a, ¬ s.Has c a := by
    intro c a hhas
    rw [Has, (h.1 c).1, (h.1 c).2] at hhas
    exact hhas.elim List.not_mem_nil List.not_mem_nil
  have hnone : ∀ c a S, ¬ s.At c a S := fun c a S hat => hno c a hat.1
  refine ⟨⟨fun c => ?_, fun c a h => absurd h (hno c a), fun c a h => absurd h (hno c a),
    fun a S hS => ?_, fun c a S h => absurd h (hnone c a S), fun c a S h => absurd h (hnone c a S),
    fun c a S h => absurd (.inr h) (hno c a), fun c a S h => absurd (.inl h) (hno c a),
    fun o ho => absurd ho (Finset.notMem_empty o), fun c a h => absurd h (hno c a), fun q => ?_,
    fun q _ c a S h => absurd h (hnone c a S)⟩, fun x => ?_,
      fun o ho => absurd ho (Finset.notMem_empty o)⟩
  · rw [(h.1 c).1, (h.1 c).2]
    exact List.nodup_nil
  · rw [h.2 a] at hS
    cases hS
  · refine ⟨.inl, fun hq => hq.resolve_right ?_⟩
    rintro ⟨c, a, S, hat, -⟩
    exact hnone c a S hat
  · exact ⟨fun hx => hx.1, fun hx => absurd hx (Finset.notMem_empty x)⟩

/-- `getorder` finds a cache whose objects are large enough. -/
theorem getorder_eq {size : ℕ} (hle : size ≤ 2 ^ maxSizeOrder) :
    ∃ order, getorder size = .ok order ∧ order ≤ maxSizeOrder ∧
      order - minSizeOrder < slabCacheNum ∧ size ≤ (slabCache (order - minSizeOrder)).objsize := by
  have hsome : ((List.range' minSizeOrder slabCacheNum).find?
      fun order => size ≤ 1 <<< order).isSome := by
    rw [List.find?_isSome]
    refine ⟨maxSizeOrder, by decide, ?_⟩
    rw [Nat.one_shiftLeft]
    exact decide_eq_true hle
  obtain ⟨order, horder⟩ := Option.isSome_iff_exists.1 hsome
  have hmem := List.mem_of_find?_eq_some horder
  have hfound := List.find?_some horder
  have hfit : size ≤ 1 <<< order := of_decide_eq_true hfound
  have htable : ∀ order ∈ List.range' minSizeOrder slabCacheNum, order ≤ maxSizeOrder ∧
      order - minSizeOrder < slabCacheNum ∧ 1 <<< order =
        (slabCache (order - minSizeOrder)).objsize := by
    decide
  obtain ⟨hmax, hc, hobj⟩ := htable order hmem
  exact ⟨order, by rw [getorder, horder], hmax, hc, hobj ▸ hfit⟩

theorem kmalloc_eq {size : ℕ} (hpos : 1 ≤ size) (hle : size ≤ 2 ^ maxSizeOrder) (s : Kmem) :
    ∃ c < slabCacheNum, size ≤ (slabCache c).objsize ∧ kmalloc size s = kmemCacheAlloc 3 c s := by
  obtain ⟨order, horder, hmax, hc, hfit⟩ := getorder_eq hle
  refine ⟨order - minSizeOrder, hc, hfit, ?_⟩
  have hpos' : size > 0 := hpos
  rw [Slab.kmalloc, assert_pos hpos', Res.ok_bind, horder, Res.ok_bind, if_neg (by omega)]

namespace Holds

variable {size : ℕ}

/-- A call of `kmalloc`. -/
theorem kmalloc (h : Holds F L sz s O) (hpos : 1 ≤ size) (hle : size ≤ 2 ^ maxSizeOrder) :
    (∃ s', Slab.kmalloc size s = .ok (none, s') ∧ Holds F L sz s' O) ∨
    ∃ o s' O', Slab.kmalloc size s = .ok (some o, s') ∧ o ∉ O ∧
      Holds F (insert o L) (Function.update sz o size) s' O' := by
  obtain ⟨c, hc, hfit, hrun⟩ := kmalloc_eq hpos hle s
  rw [hrun]
  rcases alloc_spec h.inv hc with
    ⟨s', hrun', H', hkeep, hctl⟩ | ⟨o, s', O', hrun', ho, H', hobj, hkeep, hused, -⟩
  · refine .inl ⟨s', hrun', H', fun x => ?_, fun x hx => ?_⟩
    · rw [Used, hctl]
      exact h.used x
    · obtain ⟨k, hk, hsz⟩ := h.size x hx
      exact ⟨k, hkeep k x hk, hsz⟩
  · refine .inr ⟨o, s', O', hrun', ho, H', fun x => ?_, fun x hx => ?_⟩
    · rw [hused x, h.used x, Finset.mem_insert]
    · by_cases hxo : x = o
      · subst hxo
        rw [Function.update_self]
        exact ⟨c, hobj, hfit⟩
      · obtain ⟨k, hk, hsz⟩ := h.size x ((Finset.mem_insert.1 hx).resolve_left hxo)
        rw [Function.update_of_ne hxo]
        exact ⟨k, hkeep k x hk, hsz⟩

/-- A call of `kfree`. -/
theorem kfree (h : Holds F L sz s O) {o : ℕ} (ho : o ∈ L) :
    ∃ s' O', Slab.kfree o s = .ok s' ∧ Holds F (L.erase o) sz s' O' := by
  obtain ⟨s', O', hrun, H', hsub, hkeep, hused⟩ := kfree_spec h.inv ((h.used o).2 ho)
  have hmem : ∀ x, Used O' s' x ↔ x ∈ L.erase o := fun x => by
    rw [hused x, h.used x, Finset.mem_erase]
  refine ⟨s', O', hrun, H', hmem, fun x hx => ?_⟩
  obtain ⟨k, hk, hsz⟩ := h.size x (Finset.mem_of_mem_erase hx)
  exact ⟨k, hkeep k x ((hmem x).2 hx).1 hk, hsz⟩

end Holds

/-- **Every run keeps the invariant.** -/
theorem Reach.holds {s₀ : Kmem} (h : Reach s₀ s L sz) : ∃ O, Holds s₀.pages.live L sz s O := by
  induction h with
  | start h => exact ⟨∅, h.holds _⟩
  | kmalloc _ hpos hle hrun ih =>
    obtain ⟨O, hO⟩ := ih
    rcases hO.kmalloc hpos hle with ⟨s', hrun', -⟩ | ⟨o, s', O', hrun', -, hO'⟩
    · rw [hrun] at hrun'
      simp at hrun'
    · rw [hrun, Except.ok.injEq, Prod.mk.injEq, Option.some.injEq] at hrun'
      exact ⟨O', by rwa [hrun'.1, hrun'.2]⟩
  | kmallocFail _ hpos hle hrun ih =>
    obtain ⟨O, hO⟩ := ih
    rcases hO.kmalloc hpos hle with ⟨s', hrun', hO'⟩ | ⟨o, s', O', hrun', -, -⟩
    · rw [hrun, Except.ok.injEq, Prod.mk.injEq] at hrun'
      exact ⟨O, by rwa [hrun'.2]⟩
    · rw [hrun] at hrun'
      simp at hrun'
  | kfree _ ho hrun ih =>
    obtain ⟨O, hO⟩ := ih
    obtain ⟨s', O', hrun', hO'⟩ := hO.kfree ho
    rw [hrun, Except.ok.injEq] at hrun'
    exact ⟨O', by rwa [hrun']⟩

/-! ## Safety -/

/-- The object is in use, by a caller of `kmalloc` or for a `slab_t`. -/
def Live (L : Finset ℕ) (s : Kmem) (o : ℕ) : Prop := o ∈ L ∨ s.IsControl o

/-- What is true of every state of a run. -/
structure Safe (L : Finset ℕ) (sz : ℕ → ℕ) (s : Kmem) : Prop where
  /-- Everything in use is an object of some slab. -/
  live : ∀ o, Live L s o → ∃ c, s.IsObj c o
  /-- An object that `kmalloc` has returned is large enough, is inside its slab and overlaps with
  nothing. -/
  object : ∀ o ∈ L, ∃ c a S, s.At c a S ∧ (∃ i < (slabCache c).num, o = S.obj c i) ∧
    sz o ≤ (slabCache c).objsize ∧ objBytes c o ⊆ S.bytes c ∧
    (∀ c' o', Live L s o' → s.IsObj c' o' → o' ≠ o → Disjoint (objBytes c o) (objBytes c' o')) ∧
    (∀ c' a', s.Has c' a' → Disjoint (objBytes c o) (controlBytes c' a')) ∧
    ∀ c' a' S', s.At c' a' S' → a' ≠ a → Disjoint (objBytes c o) (S'.bytes c')
  /-- The array lists the objects of a slab that are not in use, once each. -/
  bufctl : ∀ c a S, s.At c a S → ∃ l, Chain S.bufctl bufctlEnd S.free l ∧ l.Nodup ∧
    ∀ i, i ∈ l ↔ i < (slabCache c).num ∧ ¬ Live L s (S.obj c i)
  inuse : ∀ c a S, s.At c a S → S.inuse = {i | i < (slabCache c).num ∧ Live L s (S.obj c i)}.ncard
  full : ∀ c a S, s.At c a S → (a ∈ s.slabsFull c ↔ S.inuse = (slabCache c).num)
  notfull : ∀ c a S, s.At c a S → (a ∈ s.slabsNotfull c ↔ 0 < S.inuse ∧ S.inuse < (slabCache c).num)
  /-- A slab is in one list. -/
  listed : ∀ a S, s.slab a = some S → ∃ c < slabCacheNum,
    (s.slabsNotfull c ++ s.slabsFull c).count a = 1 ∧ ∀ k, s.Has k a → k = c
  /-- The pages of a slab know it. -/
  page : ∀ c a S, s.At c a S → ∀ q ∈ S.pages c, s.pageSlab q = true ∧ s.pageCache q = c ∧
    s.pageSlabp q = a

namespace Holds

theorem live_iff (h : Holds F L sz s O) (o : ℕ) : Live L s o ↔ o ∈ O := by
  rw [Live, ← h.used o, Used]
  constructor
  · rintro (ho | ho)
    · exact ho.1
    · exact h.inv.control_mem ho
  · intro ho
    by_cases hctl : s.IsControl o
    · exact .inr hctl
    · exact .inl ⟨ho, hctl⟩

/-- No slab is empty. -/
theorem inuse_pos (h : Holds F L sz s O) (hat : s.At c a S) : 0 < S.inuse := by
  rcases hat.1 with ha | ha
  · refine Nat.pos_of_ne_zero fun hzero => ?_
    exact absurd ((h.inv.notfull c a S ha hat.2).2 hzero) (Option.some_ne_none a).symm
  · rw [h.inv.full c a S ha hat.2]
    exact (h.inv.cacheOk hat).num

/-- Every slab has an object that is in use. -/
theorem exists_live (h : Holds F L sz s O) (hat : s.At c a S) :
    ∃ i < (slabCache c).num, S.obj c i ∈ O := by
  have hpos := h.inuse_pos hat
  rw [(h.inv.free c a S hat).inuse_eq, Finset.card_pos] at hpos
  obtain ⟨i, hi⟩ := hpos
  rw [Finset.mem_filter, Finset.mem_range] at hi
  exact ⟨i, hi⟩

theorem safe (h : Holds F L sz s O) : Safe L sz s := by
  have H := h.inv
  refine ⟨fun o ho => H.objects o ((h.live_iff o).1 ho), ?_, ?_, ?_, ?_, ?_, ?_,
    fun c a S hat => (H.placed c a S hat).pages⟩
  · intro o ho
    obtain ⟨c, hobj, hsz⟩ := h.size o ho
    obtain ⟨a, S, i, hat, hi, rfl⟩ := id hobj
    have hno := ((h.used _).2 ho).2
    refine ⟨c, a, S, hat, ⟨i, hi, rfl⟩, hsz, H.objBytes_subset hat hi, ?_, ?_, ?_⟩
    · exact fun c' o' _ hobj' hne => H.objBytes_disjoint hobj hobj' hne
    · exact fun c' a' hhas => H.controlBytes_disjoint hobj hno hhas
    · exact fun c' a' S' hat' hne =>
        (H.bytes_disjoint hat hat' hne).mono_left (H.objBytes_subset hat hi)
  · intro c a S hat
    obtain ⟨l, hchain, hnodup, hmem, -⟩ := H.free c a S hat
    refine ⟨l, hchain, hnodup, fun i => ?_⟩
    rw [hmem i, h.live_iff]
  · intro c a S hat
    have hset : {i | i < (slabCache c).num ∧ Live L s (S.obj c i)} =
        ((Finset.range (slabCache c).num).filter fun i => S.obj c i ∈ O : Finset ℕ) := by
      ext i
      rw [Set.mem_ofPred_eq, h.live_iff, Finset.mem_coe, Finset.mem_filter, Finset.mem_range]
    rw [hset, Set.ncard_coe_finset]
    exact (H.free c a S hat).inuse_eq
  · intro c a S hat
    refine ⟨fun ha => H.full c a S ha hat.2, fun heq => hat.1.resolve_left fun ha => ?_⟩
    exact absurd heq (ne_of_lt (H.notfull c a S ha hat.2).1)
  · intro c a S hat
    refine ⟨fun ha => ⟨h.inuse_pos hat, (H.notfull c a S ha hat.2).1⟩, fun hlt => ?_⟩
    exact hat.1.resolve_right fun ha => ne_of_lt hlt.2 (H.full c a S ha hat.2)
  · intro a S hS
    obtain ⟨c, hhas⟩ := H.known a S hS
    refine ⟨c, H.cache c a hhas, ?_, fun k hk => H.has_unique ⟨hhas, hS⟩ hk⟩
    exact List.count_eq_one_of_mem (H.nodup c) (List.mem_append.2 hhas)

end Holds

/-- **The slab allocator is safe.**  In every state of every run, whatever `alloc_pages` does, each
call returns, `kmalloc` returns an object that was not in use, and the state is safe. -/
theorem slab_safe {s₀ : Kmem} (h : Reach s₀ s L sz) :
    slabInit = .ok cacheTable ∧
    (∀ size, 1 ≤ size → size ≤ 2 ^ maxSizeOrder → ∃ r s', kmalloc size s = .ok (r, s') ∧
      ∀ o ∈ r, ¬ Live L s o) ∧
    (∀ o ∈ L, ∃ s', kfree o s = .ok s') ∧ Safe L sz s := by
  obtain ⟨O, hO⟩ := h.holds
  refine ⟨slabInit_eq, fun size hpos hle => ?_, fun o ho => ?_, hO.safe⟩
  · rcases hO.kmalloc hpos hle with ⟨s', hrun, -⟩ | ⟨o, s', -, hrun, ho, -⟩
    · exact ⟨none, s', hrun, fun o ho => absurd ho (Option.not_mem_none o)⟩
    · refine ⟨some o, s', hrun, fun x hx hlive => ho ?_⟩
      rw [Option.mem_some.1 hx]
      exact (hO.live_iff x).1 hlive
  · obtain ⟨s', -, hrun, -⟩ := hO.kfree ho
    exact ⟨s', hrun⟩

/-- Two pages are free. -/
def twoPages : Kmem where
  pages := ⟨{0}, [some 5, some 9]⟩
  pageSlab := fun _ => false
  pageCache := fun _ => 0
  pageSlabp := fun _ => 0
  slab := fun _ => none
  slabsFull := fun _ => []
  slabsNotfull := fun _ => []

theorem start_twoPages : Start twoPages := ⟨fun _ => ⟨rfl, rfl⟩, fun _ => rfl⟩

/-- `kmalloc(1000)` takes both of them, one for the object and one for the `slab_t`. -/
theorem kmalloc_twoPages : ∃ s, kmalloc 1000 twoPages = .ok (some (5 * pgSize), s) ∧
    s.pages.live = {0, 5, 9} ∧ s.slabsNotfull 5 = [9 * pgSize + 272] :=
  ⟨_, rfl, rfl, rfl⟩

theorem slab_safe_twoPages : ∃ s, Reach twoPages s (insert (5 * pgSize) ∅)
      (Function.update (fun _ => 0) (5 * pgSize) 1000) ∧
    s.slabsNotfull 5 = [9 * pgSize + 272] ∧
    Safe (insert (5 * pgSize) ∅) (Function.update (fun _ => 0) (5 * pgSize) 1000) s := by
  obtain ⟨s, hrun, -, hlist⟩ := kmalloc_twoPages
  have hreach := (Reach.start start_twoPages).kmalloc (by decide) (by decide) hrun
  exact ⟨s, hreach, hlist, (slab_safe hreach).2.2.2⟩

/-! ## Accounting -/

/-- The cache that `kfree` finds for an object. -/
def Kmem.cacheOf (s : Kmem) (o : ℕ) : ℕ := s.pageCache (o / pgSize)

/-- The slab that `kmem_cache_free` finds for an object. -/
def Kmem.slabOf (s : Kmem) (o : ℕ) : ℕ := s.pageSlabp (o / pgSize)

namespace Inv

theorem cacheOf_obj (H : Inv F O e s) (hat : s.At c a S) {i : ℕ} (hi : i < (slabCache c).num) :
    s.cacheOf (S.obj c i) = c ∧ s.slabOf (S.obj c i) = a :=
  ((H.placed c a S hat).pages _ (H.obj_page hat hi)).2

theorem isObj_cacheOf (H : Inv F O e s) {o : ℕ} (ho : o ∈ O) : s.IsObj (s.cacheOf o) o := by
  obtain ⟨c, a, S, i, hat, hi, rfl⟩ := H.objects o ho
  rw [(H.cacheOf_obj hat hi).1]
  exact ⟨a, S, i, hat, hi, rfl⟩

/-- The objects of a slab that are in use. -/
theorem card_slab (H : Inv F O e s) (hat : s.At c a S) :
    ((O.filter fun o => s.cacheOf o = c).filter fun o => s.slabOf o = a).card = S.inuse := by
  have hok := H.cacheOk hat
  rw [(H.free c a S hat).inuse_eq]
  refine (Finset.card_bij (fun i _ => S.obj c i) (fun i hi => ?_)
    (fun i _ j _ h => ?_) fun o ho => ?_).symm
  · rw [Finset.mem_filter, Finset.mem_range] at hi
    rw [Finset.mem_filter, Finset.mem_filter]
    exact ⟨⟨hi.2, (H.cacheOf_obj hat hi.1).1⟩, (H.cacheOf_obj hat hi.1).2⟩
  · exact SlabT.obj_inj hok h
  · rw [Finset.mem_filter, Finset.mem_filter] at ho
    obtain ⟨⟨ho, hc⟩, ha⟩ := ho
    obtain ⟨c', a', S', i, hat', hi, rfl⟩ := H.objects o ho
    rw [(H.cacheOf_obj hat' hi).1] at hc
    rw [(H.cacheOf_obj hat' hi).2] at ha
    subst hc ha
    obtain ⟨-, rfl⟩ := H.at_self hat hat'
    exact ⟨i, Finset.mem_filter.2 ⟨Finset.mem_range.2 hi, ho⟩, rfl⟩

/-- What `slab_allocated` adds up for one cache. -/
theorem cache_sum (H : Inv F O e s) (c : ℕ) :
    ((s.slabsFull c).map fun _ => (slabCache c).num * (slabCache c).objsize).sum +
      ((s.slabsNotfull c).map fun a => (s.slab a).elim 0 SlabT.inuse * (slabCache c).objsize).sum =
    ∑ _o ∈ O.filter fun o => s.cacheOf o = c, (slabCache c).objsize := by
  set f : ℕ → ℕ := fun a => (s.slab a).elim 0 SlabT.inuse * (slabCache c).objsize with hf
  -- a full slab counts as any other
  have hfull : (s.slabsFull c).map (fun _ => (slabCache c).num * (slabCache c).objsize) =
      (s.slabsFull c).map f := by
    refine List.map_congr_left fun a ha => ?_
    obtain ⟨S, hS⟩ := H.slab c a (.inr ha)
    rw [hf]
    show _ = (s.slab a).elim 0 SlabT.inuse * _
    rw [hS, Option.elim_some, H.full c a S ha hS]
  rw [hfull, add_comm, ← List.sum_append, ← List.map_append, ← List.sum_toFinset f (H.nodup c),
    ← Finset.sum_fiberwise_of_maps_to (s := O.filter fun o => s.cacheOf o = c)
      (t := (s.slabsNotfull c ++ s.slabsFull c).toFinset) (g := s.slabOf)]
  · refine Finset.sum_congr rfl fun a ha => ?_
    have hhas : s.Has c a := List.mem_append.1 (List.mem_toFinset.1 ha)
    obtain ⟨S, hS⟩ := H.slab c a hhas
    rw [Finset.sum_const_nat fun _ _ => rfl, H.card_slab ⟨hhas, hS⟩, hf]
    show (s.slab a).elim 0 SlabT.inuse * _ = _
    rw [hS, Option.elim_some]
  · intro o ho
    rw [Finset.mem_filter] at ho
    obtain ⟨c', a, S, i, hat, hi, rfl⟩ := H.objects o ho.1
    have hc : c' = c := (H.cacheOf_obj hat hi).1.symm.trans ho.2
    subst hc
    rw [(H.cacheOf_obj hat hi).2, List.mem_toFinset, List.mem_append]
    exact hat.1

/-- **`slab_allocated`** is the size of all objects in use. -/
theorem slabAllocated_eq (H : Inv F O e s) :
    slabAllocated s = ∑ o ∈ O, (slabCache (s.cacheOf o)).objsize := by
  rw [slabAllocated, ← List.sum_toFinset _ List.nodup_range, List.toFinset_range,
    ← Finset.sum_fiberwise_of_maps_to (s := O) (t := Finset.range slabCacheNum) (g := s.cacheOf)]
  · refine Finset.sum_congr rfl fun c _ => ?_
    rw [H.cache_sum c]
    refine Finset.sum_congr rfl fun o ho => ?_
    rw [(Finset.mem_filter.1 ho).2]
  · intro o ho
    obtain ⟨a, S, i, hat, -, -⟩ := H.isObj_cacheOf ho
    exact Finset.mem_range.2 (H.cache _ a hat.1)

end Inv

/-- Objects that hold a `slab_t` are in slabs that hold their own. -/
theorem Inv.control_inside (H : Inv F O e s) (hat : s.At c a S) {i : ℕ} (hi : i < (slabCache c).num)
    (hctl : s.IsControl (S.obj c i)) : (slabCache c).offSlab = false := by
  obtain ⟨k, hhas, hoffs⟩ := hctl
  obtain ⟨T, hT⟩ := H.slab k _ hhas
  obtain ⟨b, T', j, hat', hj, hobj⟩ := (H.control k _ hhas hoffs).2
  obtain ⟨hc, -⟩ := H.obj_inj hat hat' hi hj hobj.symm
  rw [← hc]
  exact ((H.cacheOk ⟨hhas, hT⟩).outside hoffs).2.1

/-- If only the allocator itself has objects then there are no slabs. -/
theorem Holds.not_has (h : Holds F ∅ sz s O) (c a : ℕ) : ¬ s.Has c a := by
  have H := h.inv
  -- every slab has an object in use, which holds a `slab_t`
  have hctl : ∀ c a, s.Has c a → ∃ k b, s.Has k b ∧ (slabCache k).offSlab = true ∧
      (slabCache c).offSlab = false := by
    intro c a hhas
    obtain ⟨S, hS⟩ := H.slab c a hhas
    obtain ⟨i, hi, ho⟩ := h.exists_live ⟨hhas, hS⟩
    have hlive := (h.live_iff _).2 ho
    have hcontrol : s.IsControl (S.obj c i) := hlive.resolve_left (Finset.notMem_empty _)
    obtain ⟨k, hk, hoffs⟩ := id hcontrol
    exact ⟨k, _, hk, hoffs, H.control_inside ⟨hhas, hS⟩ hi hcontrol⟩
  intro hhas
  obtain ⟨k, b, hb, hoffs, -⟩ := hctl c a hhas
  obtain ⟨-, -, -, -, hin⟩ := hctl k b hb
  rw [hoffs] at hin
  cases hin

/-- **The slab allocator keeps nothing.**  In every state of every run each slab has an object in
use, `slab_allocated` is the size of all objects in use, and the pages in use beyond those at the
start are those of the slabs.  Once everything has been freed there are no slabs, and the pages in
use are those at the start. -/
theorem slab_exact {s₀ : Kmem} (h : Reach s₀ s L sz) :
    (∀ a S, s.slab a = some S → ∃ c, s.At c a S ∧ ∃ i < (slabCache c).num, Live L s (S.obj c i)) ∧
    (∃ O : Finset ℕ, (∀ o, o ∈ O ↔ Live L s o) ∧ (∀ o ∈ O, s.IsObj (s.cacheOf o) o) ∧
      slabAllocated s = ∑ o ∈ O, (slabCache (s.cacheOf o)).objsize) ∧
    (∀ q, q ∈ s.pages.live ↔ q ∈ s₀.pages.live ∨ ∃ c a S, s.At c a S ∧
      (∃ i < (slabCache c).num, Live L s (S.obj c i)) ∧ q ∈ S.pages c) ∧
    (∀ q ∈ s₀.pages.live, ∀ c a S, s.At c a S → q ∉ S.pages c) ∧
    (L = ∅ → (∀ c, s.slabsFull c = [] ∧ s.slabsNotfull c = []) ∧ (∀ a, s.slab a = none) ∧
      s.pages.live = s₀.pages.live) := by
  obtain ⟨O, hO⟩ := h.holds
  have H := hO.inv
  have hlive : ∀ c a S, s.At c a S → ∃ i < (slabCache c).num, Live L s (S.obj c i) := by
    intro c a S hat
    obtain ⟨i, hi, ho⟩ := hO.exists_live hat
    exact ⟨i, hi, (hO.live_iff _).2 ho⟩
  refine ⟨fun a S hS => ?_, ⟨O, fun o => (hO.live_iff o).symm, fun o ho => H.isObj_cacheOf ho,
    H.slabAllocated_eq⟩, fun q => ?_, H.foreign, ?_⟩
  · obtain ⟨c, hhas⟩ := H.known a S hS
    exact ⟨c, ⟨hhas, hS⟩, hlive c a S ⟨hhas, hS⟩⟩
  · rw [H.live q]
    refine or_congr_right ?_
    constructor
    · rintro ⟨c, a, S, hat, hq⟩
      exact ⟨c, a, S, hat, hlive c a S hat, hq⟩
    · rintro ⟨c, a, S, hat, -, hq⟩
      exact ⟨c, a, S, hat, hq⟩
  · rintro rfl
    have hno := hO.not_has
    refine ⟨fun c => ⟨?_, ?_⟩, fun a => ?_, ?_⟩
    · exact List.eq_nil_iff_forall_not_mem.2 fun a ha => hno c a (.inr ha)
    · exact List.eq_nil_iff_forall_not_mem.2 fun a ha => hno c a (.inl ha)
    · refine Option.eq_none_iff_forall_ne_some.2 fun S hS => ?_
      obtain ⟨c, hhas⟩ := H.known a S hS
      exact hno c a hhas
    · ext q
      rw [H.live q]
      refine or_iff_left ?_
      rintro ⟨c, a, S, hat, -⟩
      exact hno c a hat.1

theorem slab_exact_twoPages : ∃ s s' sz, kmalloc 1000 twoPages = .ok (some (5 * pgSize), s) ∧
    kfree (5 * pgSize) s = .ok s' ∧ Reach twoPages s' ∅ sz ∧ s.pages.live = {0, 5, 9} ∧
    s'.pages.live = twoPages.pages.live := by
  obtain ⟨s, hrun, hlive, -⟩ := kmalloc_twoPages
  have hreach := (Reach.start start_twoPages).kmalloc (by decide) (by decide) hrun
  obtain ⟨O, hO⟩ := hreach.holds
  obtain ⟨s', -, hfree, -⟩ := hO.kfree (Finset.mem_insert_self _ _)
  have hreach' := hreach.kfree (Finset.mem_insert_self _ _) hfree
  rw [Finset.erase_insert (Finset.notMem_empty _)] at hreach'
  exact ⟨s, s', _, hrun, hfree, hreach', hlive, ((slab_exact hreach').2.2.2.2 rfl).2.2⟩

end Slab

end Ucore
