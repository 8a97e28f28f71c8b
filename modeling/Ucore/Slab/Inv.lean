import Ucore.Slab.Defs

/-!
# The invariant of the slab allocator

`O` is the set of the addresses of all objects that are in use, those that hold a `slab_t` included,
and `F` are the pages in use that are not in a slab.  `Inv F O e` says that every slab has its pages
to itself, that the free objects of a slab are threaded through its `bufctl`, and that the lists of
a cache say which slabs are full.  No slab is empty, except for the slab `e` that `kmem_cache_grow`
has just made.

## The parts

* `CacheOk` is what the allocator needs of the numbers of a cache.
* `SlabT.Free` says that the free objects of a slab are the chain that begins at `free` in its
  array, in the sense of `Ucore.Lib.Chain`.
* `Placed` says that a slab is where its cache wants it, and that its pages know it.  This is how
  `kfree` gets from an address to the slab and the cache.
* `Has` and `At` say that a slab is on a list of its cache, and that it is stored where the list
  says.

From these it follows that a page is in one slab at most (`at_unique`) and that an object is in one
slab, at one place (`obj_inj`).

## The changes

There are three changes to a slab: `Inv.change` for one that goes on to exist, `Inv.install` for a
new one and `Inv.remove` for one that is destroyed.  What they ask for is stated as `Relisted`,
`Installed` and `Removed`, in terms of the state before and after, so that the functions of
`Ucore.Slab.Alloc` and `Ucore.Slab.Free` only have to say which of them they make.
-/

set_option autoImplicit false

namespace Ucore

namespace Slab

/-! ## Caches -/

/-- What the allocator needs of a cache. -/
structure CacheOk (c : ℕ) : Prop where
  objsize : 0 < (slabCache c).objsize
  num : 0 < (slabCache c).num
  num_lt : (slabCache c).num < bufctlEnd
  room : (slabCache c).offset + (slabCache c).num * (slabCache c).objsize ≤
    (1 <<< (slabCache c).pageOrder) * pgSize
  inside : (slabCache c).offSlab = false →
    sizeofSlab + (slabCache c).num * sizeofBufctl ≤ (slabCache c).offset
  outside : (slabCache c).offSlab = true → (slabCache c).slabCachep < slabCacheNum ∧
    (slabCache (slabCache c).slabCachep).offSlab = false ∧
    sizeofSlab + (slabCache c).num * sizeofBufctl ≤ (slabCache (slabCache c).slabCachep).objsize

theorem cacheOk {c : ℕ} (hc : c < slabCacheNum) : CacheOk c := by
  have hall : ∀ c < slabCacheNum, 0 < (slabCache c).objsize ∧ 0 < (slabCache c).num ∧
      (slabCache c).num < bufctlEnd ∧
      (slabCache c).offset + (slabCache c).num * (slabCache c).objsize ≤
        (1 <<< (slabCache c).pageOrder) * pgSize ∧
      ((slabCache c).offSlab = false →
        sizeofSlab + (slabCache c).num * sizeofBufctl ≤ (slabCache c).offset) ∧
      ((slabCache c).offSlab = true → (slabCache c).slabCachep < slabCacheNum ∧
        (slabCache (slabCache c).slabCachep).offSlab = false ∧ sizeofSlab +
          (slabCache c).num * sizeofBufctl ≤ (slabCache (slabCache c).slabCachep).objsize) := by
    decide
  obtain ⟨h1, h2, h3, h4, h5, h6⟩ := hall c hc
  exact ⟨h1, h2, h3, h4, h5, h6⟩

/-! ## Slabs -/

/-- The pages of a slab. -/
def pagesOf (c : ℕ) : ℕ := 1 <<< (slabCache c).pageOrder

namespace SlabT

/-- The address of an object. -/
def obj (S : SlabT) (c i : ℕ) : ℕ := S.sMem + i * (slabCache c).objsize

/-- The first page of a slab. -/
def page (S : SlabT) : ℕ := (S.sMem - S.offset) / pgSize

/-- The pages of a slab. -/
def pages (S : SlabT) (c : ℕ) : Finset ℕ := Pages.range S.page (pagesOf c)

theorem page_mem (S : SlabT) (c : ℕ) : S.page ∈ S.pages c := by
  have hpos : 0 < pagesOf c := by
    rw [pagesOf, Nat.one_shiftLeft]
    exact Nat.two_pow_pos _
  rw [pages, Pages.mem_range]
  omega

/-- Where an object is. -/
theorem obj_bounds (S : SlabT) {c : ℕ} (hok : CacheOk c) (hoff : S.offset = (slabCache c).offset)
    (hmem : S.sMem = S.page * pgSize + S.offset) {i : ℕ} (hi : i < (slabCache c).num) :
    S.page * pgSize + (slabCache c).offset ≤ S.obj c i ∧
    S.obj c i + (slabCache c).objsize ≤ (S.page + pagesOf c) * pgSize := by
  have hroom := hok.room
  have hmul : i * (slabCache c).objsize + (slabCache c).objsize ≤
      (slabCache c).num * (slabCache c).objsize := by
    rw [← Nat.succ_mul]
    exact Nat.mul_le_mul_right _ hi
  rw [obj, hmem, hoff, pagesOf, Nat.add_mul]
  omega

theorem obj_page (S : SlabT) {c : ℕ} (hok : CacheOk c) (hoff : S.offset = (slabCache c).offset)
    (hmem : S.sMem = S.page * pgSize + S.offset) {i : ℕ} (hi : i < (slabCache c).num) :
    S.obj c i / pgSize ∈ S.pages c := by
  obtain ⟨h1, h2⟩ := S.obj_bounds hok hoff hmem hi
  have hpos := hok.objsize
  rw [pages, Pages.mem_range]
  constructor
  · rw [Nat.le_div_iff_mul_le (by decide)]
    omega
  · rw [Nat.div_lt_iff_lt_mul (by decide)]
    omega

/-- **The free objects** of a slab are threaded through the array. -/
def Free (O : Finset ℕ) (c : ℕ) (S : SlabT) : Prop :=
  ∃ l, Chain S.bufctl bufctlEnd S.free l ∧ l.Nodup ∧
    (∀ i, i ∈ l ↔ i < (slabCache c).num ∧ S.obj c i ∉ O) ∧
    S.inuse + l.length = (slabCache c).num

end SlabT

/-- A slab is where its cache wants it, and its pages know it. -/
structure Placed (s : Kmem) (c a : ℕ) (S : SlabT) : Prop where
  offset : S.offset = (slabCache c).offset
  mem : S.sMem = S.page * pgSize + S.offset
  own : (slabCache c).offSlab = false → a = S.page * pgSize
  pages : ∀ q ∈ S.pages c, s.pageSlab q = true ∧ s.pageCache q = c ∧ s.pageSlabp q = a

namespace Kmem

/-- A slab is in one of the lists of a cache. -/
def Has (s : Kmem) (c a : ℕ) : Prop := a ∈ s.slabsNotfull c ∨ a ∈ s.slabsFull c

/-- A slab, and its `slab_t`. -/
def At (s : Kmem) (c a : ℕ) (S : SlabT) : Prop := s.Has c a ∧ s.slab a = some S

/-- An object of a slab. -/
def IsObj (s : Kmem) (c o : ℕ) : Prop :=
  ∃ a S i, s.At c a S ∧ i < (slabCache c).num ∧ o = S.obj c i

end Kmem

open Kmem

/-- **The invariant.** -/
structure Inv (F O : Finset ℕ) (e : Option ℕ) (s : Kmem) : Prop where
  nodup : ∀ c, (s.slabsNotfull c ++ s.slabsFull c).Nodup
  cache : ∀ c a, s.Has c a → c < slabCacheNum
  slab : ∀ c a, s.Has c a → ∃ S, s.slab a = some S
  known : ∀ a S, s.slab a = some S → ∃ c, s.Has c a
  placed : ∀ c a S, s.At c a S → Placed s c a S
  free : ∀ c a S, s.At c a S → S.Free O c
  full : ∀ c a S, a ∈ s.slabsFull c → s.slab a = some S → S.inuse = (slabCache c).num
  notfull : ∀ c a S, a ∈ s.slabsNotfull c → s.slab a = some S →
    S.inuse < (slabCache c).num ∧ (S.inuse = 0 → e = some a)
  objects : ∀ o ∈ O, ∃ c, s.IsObj c o
  control : ∀ c a, s.Has c a → (slabCache c).offSlab = true → a ∈ O ∧
    s.IsObj (slabCache c).slabCachep a
  live : ∀ q, q ∈ s.pages.live ↔ q ∈ F ∨ ∃ c a S, s.At c a S ∧ q ∈ S.pages c
  foreign : ∀ q ∈ F, ∀ c a S, s.At c a S → q ∉ S.pages c

variable {F O : Finset ℕ} {e : Option ℕ} {s : Kmem} {c c' a a' : ℕ} {S S' : SlabT}

/-- The lists after a slab has been changed, which may now be in another one. -/
structure Relisted (c a inuse : ℕ) (e : Option ℕ) (s s' : Kmem) : Prop where
  nodup : ∀ k, (s'.slabsNotfull k ++ s'.slabsFull k).Nodup
  has : ∀ k b, s'.Has k b ↔ s.Has k b
  full : ∀ k b, b ≠ a → b ∈ s'.slabsFull k → b ∈ s.slabsFull k
  notfull : ∀ k b, b ≠ a → b ∈ s'.slabsNotfull k → b ∈ s.slabsNotfull k
  self_full : a ∈ s'.slabsFull c → inuse = (slabCache c).num
  self_notfull : a ∈ s'.slabsNotfull c → inuse < (slabCache c).num ∧ (inuse = 0 → e = some a)

/-- What is stored about pages. -/
structure SamePages (s s' : Kmem) : Prop where
  pages : s'.pages = s.pages
  pageSlab : s'.pageSlab = s.pageSlab
  pageCache : s'.pageCache = s.pageCache
  pageSlabp : s'.pageSlabp = s.pageSlabp

/-- `list_add`. -/
theorem mem_push {f : ℕ → List ℕ} {k b : ℕ} :
    b ∈ Function.update f c (a :: f c) k ↔ k = c ∧ b = a ∨ b ∈ f k := by
  by_cases hk : k = c
  · subst hk
    rw [Function.update_self, List.mem_cons]
    exact or_congr_left ⟨fun h => ⟨rfl, h⟩, fun h => h.2⟩
  · rw [Function.update_of_ne hk]
    exact ⟨.inr, fun h => h.resolve_left fun h => hk h.1⟩

theorem Placed.congr {s' : Kmem} (h : Placed s c a S)
    (hpages : ∀ q ∈ S.pages c, s'.pageSlab q = s.pageSlab q ∧ s'.pageCache q = s.pageCache q ∧
      s'.pageSlabp q = s.pageSlabp q) : Placed s' c a S := by
  refine ⟨h.offset, h.mem, h.own, fun q hq => ?_⟩
  obtain ⟨h1, h2, h3⟩ := hpages q hq
  rw [h1, h2, h3]
  exact h.pages q hq

/-- The objects that are free depend on the objects of the slab only. -/
theorem SlabT.Free.congr {O' : Finset ℕ} (h : S.Free O c)
    (hO : ∀ i < (slabCache c).num, S.obj c i ∈ O' ↔ S.obj c i ∈ O) : S.Free O' c := by
  obtain ⟨l, hchain, hnodup, hmem, hlen⟩ := h
  refine ⟨l, hchain, hnodup, fun i => ?_, hlen⟩
  rw [hmem i]
  exact and_congr_right fun hi => not_congr (hO i hi).symm

/-- In a new slab the free list goes through all objects in order. -/
theorem SlabT.Free.fresh (hok : CacheOk c) (hfree : S.free = 0) (hinuse : S.inuse = 0)
    (hbufctl : S.bufctl = fun i => if i + 1 = (slabCache c).num then bufctlEnd else i + 1)
    (hnew : ∀ i < (slabCache c).num, S.obj c i ∉ O) : S.Free O c := by
  refine ⟨List.range' 0 (slabCache c).num, ?_, List.nodup_range', fun i => ?_, ?_⟩
  · rw [hfree, hbufctl]
    refine Chain.range' (fun j _ hj => if_neg (by omega)) (fun h => if_pos (by omega)) ?_ hok.num
    intro j _ hj heq
    have h1 := hok.num_lt
    omega
  · rw [List.mem_range'_1]
    constructor
    · exact fun h => ⟨by omega, hnew i (by omega)⟩
    · exact fun h => ⟨Nat.zero_le i, by omega⟩
  · rw [List.length_range', hinuse, Nat.zero_add]

namespace Inv

theorem cacheOk (H : Inv F O e s) (h : s.At c a S) : CacheOk c := Slab.cacheOk (H.cache c a h.1)

/-- **A page is in one slab at most.** -/
theorem at_unique (H : Inv F O e s) (h : s.At c a S) (h' : s.At c' a' S') {q : ℕ}
    (hq : q ∈ S.pages c)
    (hq' : q ∈ S'.pages c') : c' = c ∧ a' = a ∧ S' = S := by
  obtain ⟨-, h1, h2⟩ := (H.placed c a S h).pages q hq
  obtain ⟨-, h3, h4⟩ := (H.placed c' a' S' h').pages q hq'
  have ha : a' = a := h4.symm.trans h2
  refine ⟨h3.symm.trans h1, ha, ?_⟩
  have hS := h'.2
  rw [ha, h.2, Option.some.injEq] at hS
  exact hS.symm

/-- A slab is in the lists of one cache. -/
theorem has_unique (H : Inv F O e s) (h : s.At c a S) (h' : s.Has c' a) : c' = c := by
  obtain ⟨S', hS'⟩ := H.slab c' a h'
  have heq : S' = S := Option.some.inj (hS'.symm.trans h.2)
  subst heq
  exact (H.placed c' a S' ⟨h', hS'⟩).pages _ (S'.page_mem c') |>.2.1.symm.trans
    ((H.placed c a S' h).pages _ (S'.page_mem c)).2.1

theorem at_self (H : Inv F O e s) (h : s.At c a S) (h' : s.At c' a S') : c' = c ∧ S' = S :=
  ⟨H.has_unique h h'.1, Option.some.inj (h'.2.symm.trans h.2)⟩

theorem obj_bounds (H : Inv F O e s) (h : s.At c a S) {i : ℕ} (hi : i < (slabCache c).num) :
    S.page * pgSize + (slabCache c).offset ≤ S.obj c i ∧
    S.obj c i + (slabCache c).objsize ≤ (S.page + pagesOf c) * pgSize :=
  S.obj_bounds (H.cacheOk h) (H.placed c a S h).offset (H.placed c a S h).mem hi

theorem obj_page (H : Inv F O e s) (h : s.At c a S) {i : ℕ} (hi : i < (slabCache c).num) :
    S.obj c i / pgSize ∈ S.pages c :=
  S.obj_page (H.cacheOk h) (H.placed c a S h).offset (H.placed c a S h).mem hi

/-- **An object is in one slab, at one place.** -/
theorem obj_inj (H : Inv F O e s) (h : s.At c a S) (h' : s.At c' a' S') {i j : ℕ}
    (hi : i < (slabCache c).num) (hj : j < (slabCache c').num) (heq : S'.obj c' j = S.obj c i) :
    c' = c ∧ a' = a ∧ S' = S ∧ j = i := by
  obtain ⟨rfl, rfl, rfl⟩ := H.at_unique h h' (H.obj_page h hi) (heq ▸ H.obj_page h' hj)
  refine ⟨rfl, rfl, rfl, ?_⟩
  rw [SlabT.obj, SlabT.obj, Nat.add_left_cancel_iff] at heq
  exact Nat.eq_of_mul_eq_mul_right (H.cacheOk h).objsize heq

/-- The number of objects in use, in terms of the free ones. -/
theorem inuse_le (H : Inv F O e s) (h : s.At c a S) : S.inuse ≤ (slabCache c).num := by
  obtain ⟨l, -, -, -, hlen⟩ := H.free c a S h
  omega

/-! ## A slab that goes on to exist -/

/-- The objects of a slab stay where they are. -/
theorem change_isObj (H : Inv F O e s) (hat : s.At c a S) {s' : Kmem} (hmem : S'.sMem = S.sMem)
    (hslab : s'.slab = Function.update s.slab a (some S')) (hhas : ∀ k b, s'.Has k b ↔ s.Has k b)
    {k o : ℕ}
    (ho : s.IsObj k o) : s'.IsObj k o := by
  obtain ⟨b, T, i, hT, hi, rfl⟩ := ho
  by_cases hb : b = a
  · subst hb
    obtain ⟨rfl, rfl⟩ := H.at_self hat hT
    refine ⟨b, S', i, ⟨(hhas k b).2 hT.1, ?_⟩, hi, ?_⟩
    · rw [hslab, Function.update_self]
    · rw [SlabT.obj, SlabT.obj, hmem]
  · refine ⟨b, T, i, ⟨(hhas k b).2 hT.1, ?_⟩, hi, rfl⟩
    rw [hslab, Function.update_of_ne hb]
    exact hT.2

/-- **One slab changes.** -/
theorem change (H : Inv F O e s) (hat : s.At c a S) {O' : Finset ℕ} {e' : Option ℕ} {s' : Kmem}
    (hmem : S'.sMem = S.sMem) (hoff : S'.offset = S.offset)
    (hslab : s'.slab = Function.update s.slab a (some S')) (hpages : SamePages s s')
    (hlists : Relisted c a S'.inuse e' s s') (hfree : S'.Free O' c)
    (hO : ∀ o, (∀ i < (slabCache c).num, o ≠ S.obj c i) → (o ∈ O' ↔ o ∈ O))
    (hctl : ∀ k b, s.Has k b → (slabCache k).offSlab = true → b ∈ O')
    (he : ∀ b, b ≠ a → e = some b → e' = some b) : Inv F O' e' s' := by
  have hself : s'.slab a = some S' := by rw [hslab, Function.update_self]
  have hother : ∀ b, b ≠ a → s'.slab b = s.slab b := fun b hb => by
    rw [hslab, Function.update_of_ne hb]
  have hpage : S'.page = S.page := by rw [SlabT.page, SlabT.page, hmem, hoff]
  have hpgs : S'.pages c = S.pages c := by rw [SlabT.pages, SlabT.pages, hpage]
  -- a slab is the one that has changed, or one of the others
  have hcases : ∀ k b T, s'.At k b T → k = c ∧ b = a ∧ T = S' ∨ b ≠ a ∧ s.At k b T := by
    rintro k b T ⟨hb, hT⟩
    by_cases hba : b = a
    · subst hba
      rw [hself, Option.some.injEq] at hT
      exact .inl ⟨H.has_unique hat ((hlists.has k b).1 hb), rfl, hT.symm⟩
    · rw [hother b hba] at hT
      exact .inr ⟨hba, (hlists.has k b).1 hb, hT⟩
  have hat' : s'.At c a S' := ⟨(hlists.has c a).2 hat.1, hself⟩
  have hkeep : ∀ k b T, b ≠ a → s.At k b T → s'.At k b T := fun k b T hb h =>
    ⟨(hlists.has k b).2 h.1, (hother b hb).trans h.2⟩
  have hisObj : ∀ k o, s.IsObj k o → s'.IsObj k o := fun k o =>
    H.change_isObj hat hmem hslab hlists.has
  refine ⟨hlists.nodup, fun k b hb => H.cache k b ((hlists.has k b).1 hb), fun k b hb => ?_, ?_,
    ?_, ?_, ?_, ?_, ?_, ?_, ?_, ?_⟩
  · by_cases hba : b = a
    · exact ⟨S', hba ▸ hself⟩
    · obtain ⟨T, hT⟩ := H.slab k b ((hlists.has k b).1 hb)
      exact ⟨T, (hother b hba).trans hT⟩
  · intro b T hT
    by_cases hba : b = a
    · exact ⟨c, hba ▸ hat'.1⟩
    · obtain ⟨k, hk⟩ := H.known b T ((hother b hba).symm.trans hT)
      exact ⟨k, (hlists.has k b).2 hk⟩
  · intro k b T hT
    have hsame : ∀ q, s'.pageSlab q = s.pageSlab q ∧ s'.pageCache q = s.pageCache q ∧
        s'.pageSlabp q = s.pageSlabp q := fun q => by
      rw [hpages.pageSlab, hpages.pageCache, hpages.pageSlabp]
      exact ⟨rfl, rfl, rfl⟩
    rcases hcases k b T hT with ⟨rfl, rfl, rfl⟩ | ⟨-, hT⟩
    · have hp := H.placed k b S hat
      refine Placed.congr (s := s) ⟨hoff.trans hp.offset, ?_, ?_, ?_⟩ fun q _ => hsame q
      · rw [hmem, hpage, hoff]
        exact hp.mem
      · rw [hpage]
        exact hp.own
      · rw [hpgs]
        exact hp.pages
    · exact (H.placed k b T hT).congr fun q _ => hsame q
  · intro k b T hT
    rcases hcases k b T hT with ⟨rfl, rfl, rfl⟩ | ⟨hb, hT⟩
    · exact hfree
    · refine (H.free k b T hT).congr fun i hi => hO _ fun j hj heq => ?_
      exact hb (H.obj_inj hat hT hj hi heq).2.1
  · intro k b T hb hT
    rcases hcases k b T ⟨.inr hb, hT⟩ with ⟨rfl, rfl, rfl⟩ | ⟨hba, hT'⟩
    · exact hlists.self_full hb
    · exact H.full k b T (hlists.full k b hba hb) hT'.2
  · intro k b T hb hT
    rcases hcases k b T ⟨.inl hb, hT⟩ with ⟨rfl, rfl, rfl⟩ | ⟨hba, hT'⟩
    · exact hlists.self_notfull hb
    · obtain ⟨h1, h2⟩ := H.notfull k b T (hlists.notfull k b hba hb) hT'.2
      exact ⟨h1, fun h => he b hba (h2 h)⟩
  · intro o ho
    by_cases hown : ∃ i < (slabCache c).num, o = S.obj c i
    · obtain ⟨i, hi, rfl⟩ := hown
      exact ⟨c, hisObj c _ ⟨a, S, i, hat, hi, rfl⟩⟩
    · have hne : ∀ i < (slabCache c).num, o ≠ S.obj c i := fun i hi h => hown ⟨i, hi, h⟩
      obtain ⟨k, hk⟩ := H.objects o ((hO o hne).1 ho)
      exact ⟨k, hisObj k o hk⟩
  · intro k b hb hoffs
    have hb' := (hlists.has k b).1 hb
    exact ⟨hctl k b hb' hoffs, hisObj _ b (H.control k b hb' hoffs).2⟩
  · intro q
    rw [hpages.pages, H.live q]
    refine or_congr_right ?_
    constructor
    · rintro ⟨k, b, T, hT, hq⟩
      by_cases hb : b = a
      · subst hb
        obtain ⟨rfl, rfl⟩ := H.at_self hat hT
        exact ⟨k, b, S', hat', hpgs ▸ hq⟩
      · exact ⟨k, b, T, hkeep k b T hb hT, hq⟩
    · rintro ⟨k, b, T, hT, hq⟩
      rcases hcases k b T hT with ⟨rfl, rfl, rfl⟩ | ⟨-, hT'⟩
      · exact ⟨k, b, S, hat, hpgs ▸ hq⟩
      · exact ⟨k, b, T, hT', hq⟩
  · intro q hq k b T hT
    rcases hcases k b T hT with ⟨rfl, rfl, rfl⟩ | ⟨-, hT'⟩
    · rw [hpgs]
      exact H.foreign q hq k b S hat
    · exact H.foreign q hq k b T hT'

/-- The pages of objects in use are not foreign. -/
theorem not_foreign (H : Inv F O e s) {o : ℕ} (ho : s.IsObj c o) : o / pgSize ∉ F := by
  obtain ⟨a, S, i, hat, hi, rfl⟩ := ho
  exact fun hF => H.foreign _ hF c a S hat (H.obj_page hat hi)

/-! ## A new slab -/

/-- The pages of a new slab, as `kmem_cache_grow` leaves them. -/
structure Installed (c a p : ℕ) (S : SlabT) (s s' : Kmem) : Prop where
  slab : s'.slab = Function.update s.slab a (some S)
  pages : s'.pages = s.pages
  pageSlab : s'.pageSlab = (s.setPages p (pagesOf c) c a).pageSlab
  pageCache : s'.pageCache = (s.setPages p (pagesOf c) c a).pageCache
  pageSlabp : s'.pageSlabp = (s.setPages p (pagesOf c) c a).pageSlabp
  full : s'.slabsFull = s.slabsFull
  notfull : s'.slabsNotfull = Function.update s.slabsNotfull c (a :: s.slabsNotfull c)

theorem Installed.has {p : ℕ} {s' : Kmem} (h : Installed c a p S s s') (k b : ℕ) :
    s'.Has k b ↔ k = c ∧ b = a ∨ s.Has k b := by
  rw [Has, Has, h.full, h.notfull, mem_push, or_assoc]

theorem Installed.isObj {p : ℕ} {s' : Kmem} (h : Installed c a p S s s') (hfresh : ∀ k, ¬ s.Has k a)
    {k o : ℕ} (ho : s.IsObj k o) : s'.IsObj k o := by
  obtain ⟨b, T, i, hT, hi, rfl⟩ := ho
  have hba : b ≠ a := fun hb => hfresh k (hb ▸ hT.1)
  refine ⟨b, T, i, ⟨(h.has k b).2 (.inr hT.1), ?_⟩, hi, rfl⟩
  rw [h.slab, Function.update_of_ne hba]
  exact hT.2

/-- **A new slab**, in pages that were not in one. -/
theorem install (H : Inv F O none s) (hc : c < slabCacheNum) {p : ℕ} {s' : Kmem} {bufctl : ℕ → ℕ}
    (hF : Pages.range p (pagesOf c) ⊆ F) (hfresh : ∀ k, ¬ s.Has k a)
    (hown : (slabCache c).offSlab = false → a = p * pgSize)
    (hctl : (slabCache c).offSlab = true → a ∈ O ∧ s.IsObj (slabCache c).slabCachep a)
    (hbufctl : bufctl = fun i => if i + 1 = (slabCache c).num then bufctlEnd else i + 1)
    (hin : Installed c a p ⟨p * pgSize + (slabCache c).offset, 0, (slabCache c).offset, 0,
      bufctl⟩ s s') :
    Inv (F \ Pages.range p (pagesOf c)) O (some a) s' := by
  have hok := Slab.cacheOk hc
  set S : SlabT := ⟨p * pgSize + (slabCache c).offset, 0, (slabCache c).offset, 0, bufctl⟩ with hS
  have hpage : S.page = p := by
    rw [SlabT.page, Nat.add_sub_cancel, Nat.mul_div_left _ (by decide)]
  have hpgs : S.pages c = Pages.range p (pagesOf c) := by rw [SlabT.pages, hpage]
  have hne : ∀ k b, s.Has k b → b ≠ a := fun k b hb h => hfresh k (h ▸ hb)
  have hself : s'.slab a = some S := by rw [hin.slab, Function.update_self]
  have hold : ∀ k b T, s.At k b T → s'.At k b T := fun k b T hT =>
    ⟨(hin.has k b).2 (.inr hT.1), by rw [hin.slab,
      Function.update_of_ne (hne k b hT.1)]; exact hT.2⟩
  have hcases : ∀ k b T, s'.At k b T → k = c ∧ b = a ∧ T = S ∨ s.At k b T := by
    rintro k b T ⟨hb, hT⟩
    rcases (hin.has k b).1 hb with ⟨rfl, rfl⟩ | hb
    · rw [hself, Option.some.injEq] at hT
      exact .inl ⟨rfl, rfl, hT.symm⟩
    · rw [hin.slab, Function.update_of_ne (hne k b hb)] at hT
      exact .inr ⟨hb, hT⟩
  have hisObj : ∀ k o, s.IsObj k o → s'.IsObj k o := fun k o => hin.isObj hfresh
  -- the objects of the new slab are in pages that were not in a slab
  have hnew : ∀ i < (slabCache c).num, S.obj c i ∉ O := by
    intro i hi ho
    obtain ⟨k, hk⟩ := H.objects _ ho
    refine H.not_foreign hk (hF ?_)
    rw [← hpgs]
    exact S.obj_page hok rfl (by rw [hpage]) hi
  have hstored : ∀ q, q ∉ Pages.range p (pagesOf c) → s'.pageSlab q = s.pageSlab q ∧
      s'.pageCache q = s.pageCache q ∧ s'.pageSlabp q = s.pageSlabp q := by
    intro q hq
    rw [hin.pageSlab, hin.pageCache, hin.pageSlabp]
    exact ⟨if_neg hq, if_neg hq, if_neg hq⟩
  refine ⟨fun k => ?_, ?_, ?_, ?_, ?_, ?_, ?_, ?_, ?_, ?_, ?_, ?_⟩
  · rw [hin.full, hin.notfull]
    by_cases hk : k = c
    · subst hk
      rw [Function.update_self, List.cons_append, List.nodup_cons, List.mem_append]
      exact ⟨hfresh k, H.nodup k⟩
    · rw [Function.update_of_ne hk]
      exact H.nodup k
  · intro k b hb
    rcases (hin.has k b).1 hb with ⟨rfl, -⟩ | hb
    · exact hc
    · exact H.cache k b hb
  · intro k b hb
    rcases (hin.has k b).1 hb with ⟨rfl, rfl⟩ | hb
    · exact ⟨S, hself⟩
    · obtain ⟨T, hT⟩ := H.slab k b hb
      exact ⟨T, (hold k b T ⟨hb, hT⟩).2⟩
  · intro b T hT
    by_cases hba : b = a
    · exact ⟨c, (hin.has c b).2 (.inl ⟨rfl, hba⟩)⟩
    · rw [hin.slab, Function.update_of_ne hba] at hT
      obtain ⟨k, hk⟩ := H.known b T hT
      exact ⟨k, (hin.has k b).2 (.inr hk)⟩
  · intro k b T hT
    rcases hcases k b T hT with ⟨rfl, rfl, rfl⟩ | hT
    · refine ⟨rfl, by rw [hpage], by rw [hpage]; exact hown, fun q hq => ?_⟩
      rw [hpgs] at hq
      rw [hin.pageSlab, hin.pageCache, hin.pageSlabp]
      exact ⟨if_pos hq, if_pos hq, if_pos hq⟩
    · exact (H.placed k b T hT).congr fun q hq =>
        hstored q fun hr => H.foreign q (hF hr) k b T hT hq
  · intro k b T hT
    rcases hcases k b T hT with ⟨rfl, rfl, rfl⟩ | hT
    · exact .fresh hok rfl rfl hbufctl hnew
    · exact H.free k b T hT
  · intro k b T hb hT
    rw [hin.full] at hb
    rcases hcases k b T ⟨.inr (hin.full ▸ hb), hT⟩ with ⟨rfl, rfl, rfl⟩ | hT
    · exact absurd (.inr hb) (hfresh k)
    · exact H.full k b T hb hT.2
  · intro k b T hb hT
    rcases hcases k b T ⟨.inl hb, hT⟩ with ⟨rfl, rfl, rfl⟩ | hT
    · exact ⟨hok.num, fun _ => rfl⟩
    · have hb' : b ∈ s.slabsNotfull k := by
        rw [hin.notfull] at hb
        by_cases hk : k = c
        · subst hk
          rw [Function.update_self] at hb
          exact (List.mem_cons.1 hb).resolve_left (hne k b hT.1)
        · rwa [Function.update_of_ne hk] at hb
      obtain ⟨h1, h2⟩ := H.notfull k b T hb' hT.2
      exact ⟨h1, fun h => absurd (h2 h) (Option.some_ne_none b).symm⟩
  · intro o ho
    obtain ⟨k, hk⟩ := H.objects o ho
    exact ⟨k, hisObj k o hk⟩
  · intro k b hb hoffs
    rcases (hin.has k b).1 hb with ⟨rfl, rfl⟩ | hb
    · exact ⟨(hctl hoffs).1, hisObj _ b (hctl hoffs).2⟩
    · exact ⟨(H.control k b hb hoffs).1, hisObj _ b (H.control k b hb hoffs).2⟩
  · intro q
    rw [hin.pages, H.live q, Finset.mem_sdiff]
    constructor
    · rintro (hq | ⟨k, b, T, hT, hq⟩)
      · by_cases hr : q ∈ Pages.range p (pagesOf c)
        · exact .inr ⟨c, a, S, ⟨(hin.has c a).2 (.inl ⟨rfl, rfl⟩), hself⟩, hpgs ▸ hr⟩
        · exact .inl ⟨hq, hr⟩
      · exact .inr ⟨k, b, T, hold k b T hT, hq⟩
    · rintro (hq | ⟨k, b, T, hT, hq⟩)
      · exact .inl hq.1
      · rcases hcases k b T hT with ⟨rfl, rfl, rfl⟩ | hT
        · exact .inl (hF (hpgs ▸ hq))
        · exact .inr ⟨k, b, T, hT, hq⟩
  · intro q hq k b T hT
    rw [Finset.mem_sdiff] at hq
    rcases hcases k b T hT with ⟨rfl, rfl, rfl⟩ | hT
    · rw [hpgs]
      exact hq.2
    · exact H.foreign q hq.1 k b T hT

/-! ## A slab that is destroyed -/

/-- The state without a slab. -/
structure Removed (c a : ℕ) (S : SlabT) (s s' : Kmem) : Prop where
  slab : s'.slab = Function.update s.slab a none
  live : s'.pages.live = s.pages.live \ S.pages c
  stored : ∀ q, q ∉ S.pages c → s'.pageSlab q = s.pageSlab q ∧ s'.pageCache q = s.pageCache q ∧
    s'.pageSlabp q = s.pageSlabp q
  full : s'.slabsFull = fun k => (s.slabsFull k).erase a
  notfull : s'.slabsNotfull = fun k => (s.slabsNotfull k).erase a

/-- **A slab is destroyed.** -/
theorem remove (H : Inv F O none s) (hat : s.At c a S) {O' : Finset ℕ} {s' : Kmem}
    (hrem : Removed c a S s s') (hgone : ∀ i < (slabCache c).num, S.obj c i ∉ O')
    (hO : ∀ o, (∀ i < (slabCache c).num, o ≠ S.obj c i) → (o ∈ O' ↔ o ∈ O))
    (hctl : ∀ k b, s.Has k b → b ≠ a → (slabCache k).offSlab = true → b ∈ O') :
    Inv F O' none s' ∧ (∀ k b, s'.Has k b ↔ b ≠ a ∧ s.Has k b) ∧
      ∀ k o, o ∈ O' → s.IsObj k o → s'.IsObj k o := by
  have hslab : ∀ b, b ≠ a → s'.slab b = s.slab b := fun b hb => by
    rw [hrem.slab, Function.update_of_ne hb]
  have hfull : ∀ k b, b ∈ s'.slabsFull k ↔ b ≠ a ∧ b ∈ s.slabsFull k := fun k b => by
    rw [hrem.full, (List.Nodup.of_append_right (H.nodup k)).mem_erase_iff]
  have hnotfull : ∀ k b, b ∈ s'.slabsNotfull k ↔ b ≠ a ∧ b ∈ s.slabsNotfull k := fun k b => by
    rw [hrem.notfull, (List.Nodup.of_append_left (H.nodup k)).mem_erase_iff]
  have hhas : ∀ k b, s'.Has k b ↔ b ≠ a ∧ s.Has k b := fun k b => by
    rw [Has, Has, hfull, hnotfull, ← and_or_left]
  have hAt : ∀ k b T, s'.At k b T ↔ b ≠ a ∧ s.At k b T := by
    intro k b T
    rw [Kmem.At, Kmem.At, hhas, and_assoc]
    exact and_congr_right fun hb => by rw [hslab b hb]
  -- objects in use are not in the slab that is gone
  have hisObj : ∀ k o, o ∈ O' → s.IsObj k o → s'.IsObj k o := by
    rintro k o ho ⟨b, T, i, hT, hi, rfl⟩
    refine ⟨b, T, i, (hAt k b T).2 ⟨?_, hT⟩, hi, rfl⟩
    rintro rfl
    obtain ⟨rfl, rfl⟩ := H.at_self hat hT
    exact hgone i hi ho
  have hnotown : ∀ o ∈ O', ∀ i < (slabCache c).num, o ≠ S.obj c i := by
    rintro o ho i hi rfl
    exact hgone i hi ho
  refine ⟨⟨fun k => ?_, ?_, ?_, ?_, ?_, ?_, ?_, ?_, ?_, ?_, ?_, ?_⟩, hhas, hisObj⟩
  · rw [hrem.full, hrem.notfull]
    exact (H.nodup k).sublist (List.Sublist.append List.erase_sublist List.erase_sublist)
  · exact fun k b hb => H.cache k b ((hhas k b).1 hb).2
  · intro k b hb
    obtain ⟨hba, hb⟩ := (hhas k b).1 hb
    obtain ⟨T, hT⟩ := H.slab k b hb
    exact ⟨T, by rw [hslab b hba]; exact hT⟩
  · intro b T hT
    have hba : b ≠ a := by
      rintro rfl
      rw [hrem.slab, Function.update_self] at hT
      cases hT
    obtain ⟨k, hk⟩ := H.known b T ((hslab b hba).symm.trans hT)
    exact ⟨k, (hhas k b).2 ⟨hba, hk⟩⟩
  · intro k b T hT
    obtain ⟨hb, hT⟩ := (hAt k b T).1 hT
    refine (H.placed k b T hT).congr fun q hq => hrem.stored q fun hr => hb ?_
    exact (H.at_unique hat hT hr hq).2.1
  · intro k b T hT
    obtain ⟨hb, hT⟩ := (hAt k b T).1 hT
    refine (H.free k b T hT).congr fun i hi => hO _ fun j hj heq => hb ?_
    exact (H.obj_inj hat hT hj hi heq).2.1
  · intro k b T hb hT
    obtain ⟨hba, hb⟩ := (hfull k b).1 hb
    exact H.full k b T hb (by rw [← hslab b hba]; exact hT)
  · intro k b T hb hT
    obtain ⟨hba, hb⟩ := (hnotfull k b).1 hb
    exact H.notfull k b T hb (by rw [← hslab b hba]; exact hT)
  · intro o ho
    obtain ⟨k, hk⟩ := H.objects o ((hO o (hnotown o ho)).1 ho)
    exact ⟨k, hisObj k o ho hk⟩
  · intro k b hb hoffs
    obtain ⟨hba, hb⟩ := (hhas k b).1 hb
    have hbO := hctl k b hb hba hoffs
    exact ⟨hbO, hisObj _ b hbO (H.control k b hb hoffs).2⟩
  · intro q
    rw [hrem.live, Finset.mem_sdiff, H.live q]
    constructor
    · rintro ⟨hq | ⟨k, b, T, hT, hq⟩, hr⟩
      · exact .inl hq
      · refine .inr ⟨k, b, T, (hAt k b T).2 ⟨?_, hT⟩, hq⟩
        rintro rfl
        obtain ⟨rfl, rfl⟩ := H.at_self hat hT
        exact hr hq
    · rintro (hq | ⟨k, b, T, hT, hq⟩)
      · exact ⟨.inl hq, H.foreign q hq c a S hat⟩
      · obtain ⟨hb, hT⟩ := (hAt k b T).1 hT
        exact ⟨.inr ⟨k, b, T, hT, hq⟩, fun hr => hb (H.at_unique hat hT hr hq).2.1⟩
  · intro q hq k b T hT
    exact H.foreign q hq k b T ((hAt k b T).1 hT).2

/-! ## Lists -/

theorem listDel_full (H : Inv F O e s) (a k b : ℕ) :
    b ∈ (s.listDel a).slabsFull k ↔ b ≠ a ∧ b ∈ s.slabsFull k :=
  (List.Nodup.of_append_right (H.nodup k)).mem_erase_iff

theorem listDel_notfull (H : Inv F O e s) (a k b : ℕ) :
    b ∈ (s.listDel a).slabsNotfull k ↔ b ≠ a ∧ b ∈ s.slabsNotfull k :=
  (List.Nodup.of_append_left (H.nodup k)).mem_erase_iff

theorem listDel_nodup (H : Inv F O e s) (a k : ℕ) :
    ((s.listDel a).slabsNotfull k ++ (s.listDel a).slabsFull k).Nodup :=
  (H.nodup k).sublist (List.Sublist.append List.erase_sublist List.erase_sublist)

theorem listDel_not_mem (H : Inv F O e s) (a k : ℕ) :
    a ∉ (s.listDel a).slabsNotfull k ++ (s.listDel a).slabsFull k := by
  rw [List.mem_append, H.listDel_full, H.listDel_notfull]
  exact fun h => h.elim (fun h => h.1 rfl) fun h => h.1 rfl

/-- A slab is moved to the list of full slabs, or to the other one. -/
theorem relist (H : Inv F O e s) (hat : s.At c a S) {s' : Kmem} {inuse : ℕ} {P : Prop}
    (hnodup : ∀ k, (s'.slabsNotfull k ++ s'.slabsFull k).Nodup)
    (hfull : ∀ k b, b ∈ s'.slabsFull k ↔ (k = c ∧ b = a) ∧ P ∨ b ≠ a ∧ b ∈ s.slabsFull k)
    (hnotfull : ∀ k b, b ∈ s'.slabsNotfull k ↔
      (k = c ∧ b = a) ∧ ¬ P ∨ b ≠ a ∧ b ∈ s.slabsNotfull k)
    (hinuse : P → inuse = (slabCache c).num)
    (hinuse' : ¬ P → 0 < inuse ∧ inuse < (slabCache c).num) : Relisted c a inuse none s s' := by
  refine ⟨hnodup, fun k b => ?_, fun k b hb h => ?_, fun k b hb h => ?_, fun h => ?_, fun h => ?_⟩
  · rw [Has, hfull, hnotfull]
    by_cases hba : b = a
    · have hself : s.Has k b ↔ k = c := by
        rw [hba]
        exact ⟨H.has_unique hat, fun hk => hk ▸ hat.1⟩
      rw [hself]
      by_cases hP : P
      · simp [hba, hP]
      · simp [hba, hP]
    · rw [Has]
      simp [hba]
  · exact (((hfull k b).1 h).resolve_left fun h => hb h.1.2).2
  · exact (((hnotfull k b).1 h).resolve_left fun h => hb h.1.2).2
  · exact hinuse (((hfull c a).1 h).resolve_right fun h => h.1 rfl).2
  · obtain ⟨h1, h2⟩ := hinuse' (((hnotfull c a).1 h).resolve_right fun h => h.1 rfl).2
    exact ⟨h2, fun h => absurd h (by omega)⟩

/-- `list_del`, and then `list_add` to the list of full slabs. -/
theorem relist_full (H : Inv F O e s) (hat : s.At c a S) {s' : Kmem} {inuse : ℕ}
    (hinuse : inuse = (slabCache c).num)
    (hfull : s'.slabsFull =
      Function.update (s.listDel a).slabsFull c (a :: (s.listDel a).slabsFull c))
    (hnotfull : s'.slabsNotfull = (s.listDel a).slabsNotfull) : Relisted c a inuse none s s' := by
  refine H.relist hat (P := True) (fun k => ?_) (fun k b => ?_) (fun k b => ?_)
    (fun _ => hinuse) fun h => absurd trivial h
  · rw [hfull, hnotfull]
    have hnodup := H.listDel_nodup a k
    by_cases hk : k = c
    · subst hk
      rw [Function.update_self, List.nodup_middle]
      exact List.nodup_cons.2 ⟨H.listDel_not_mem a k, hnodup⟩
    · rw [Function.update_of_ne hk]
      exact hnodup
  · rw [hfull, mem_push, H.listDel_full, and_true]
  · rw [hnotfull, H.listDel_notfull, not_true, and_false, false_or]

/-- `list_del`, and then `list_add` to the other list. -/
theorem relist_notfull (H : Inv F O e s) (hat : s.At c a S) {s' : Kmem} {inuse : ℕ}
    (hinuse : 0 < inuse ∧ inuse < (slabCache c).num)
    (hfull : s'.slabsFull = (s.listDel a).slabsFull)
    (hnotfull : s'.slabsNotfull =
      Function.update (s.listDel a).slabsNotfull c (a :: (s.listDel a).slabsNotfull c)) :
    Relisted c a inuse none s s' := by
  refine H.relist hat (P := False) (fun k => ?_) (fun k b => ?_) (fun k b => ?_)
    (fun h => absurd h id) fun _ => hinuse
  · rw [hfull, hnotfull]
    have hnodup := H.listDel_nodup a k
    by_cases hk : k = c
    · subst hk
      rw [Function.update_self, List.cons_append]
      exact List.nodup_cons.2 ⟨H.listDel_not_mem a k, hnodup⟩
    · rw [Function.update_of_ne hk]
      exact hnodup
  · rw [hfull, H.listDel_full, and_false, false_or]
  · rw [hnotfull, mem_push, H.listDel_notfull, not_false_eq_true, and_true]

/-- A slab that stays where it is. -/
theorem relist_same (H : Inv F O e s) (hat : s.At c a S) {s' : Kmem} {inuse : ℕ}
    (hin : a ∈ s.slabsNotfull c) (hinuse : 0 < inuse ∧ inuse < (slabCache c).num)
    (hfull : s'.slabsFull = s.slabsFull) (hnotfull : s'.slabsNotfull = s.slabsNotfull) :
    Relisted c a inuse none s s' := by
  have hself : ∀ k, a ∉ s.slabsFull k := by
    intro k hk
    have hkc := H.has_unique hat (.inr hk)
    subst hkc
    exact (List.nodup_append.1 (H.nodup k)).2.2 a hin a hk rfl
  refine ⟨fun k => by rw [hfull, hnotfull]; exact H.nodup k, fun k b => by
    rw [Has, Has, hfull, hnotfull],
    fun k b _ h => hfull ▸ h, fun k b _ h => hnotfull ▸ h, fun h => ?_, fun _ => ⟨hinuse.2, ?_⟩⟩
  · rw [hfull] at h
    exact absurd h (hself c)
  · exact fun h => absurd h (by omega)

end Inv

end Slab

end Ucore
