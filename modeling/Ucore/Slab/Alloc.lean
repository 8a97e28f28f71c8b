import Ucore.Slab.Inv

/-!
# Allocation of objects

`kmem_cache_alloc` takes the first free object of the first slab that has one.  If there is none it
makes a new slab, and for the `slab_t` of a cache with large objects it calls itself for another
cache, which has small objects.  `alloc_spec` says that it always returns, that an object that it
returns was not in use, and that nothing else is in use afterwards except for a new `slab_t`.

* `allocOne_spec` — `kmem_cache_alloc_one`: the first free object leaves the chain of its slab, and
  the slab goes to the list of full ones if it was the last.
* `initSlab_spec` and `Inv.grown` — the part of `kmem_cache_grow` behind the search for a `slab_t`.
* `grow_spec` and `alloc_of_grow` — `kmem_cache_grow` and `kmem_cache_alloc`, each of them if what
  it calls does what it should.

The recursion is taken apart in this way because it is short: the cache of the `slab_t` has its own
`slab_t` in its slabs, so `alloc_spec` uses the two lemmas twice.
-/

set_option autoImplicit false

namespace Ucore

namespace Slab

open Kmem

/-- The object holds a `slab_t`. -/
def Kmem.IsControl (s : Kmem) (o : ℕ) : Prop := ∃ k, s.Has k o ∧ (slabCache k).offSlab = true

/-- The object is in use by somebody else. -/
def Used (O : Finset ℕ) (s : Kmem) (o : ℕ) : Prop := o ∈ O ∧ ¬ s.IsControl o

variable {F O : Finset ℕ} {e : Option ℕ} {s : Kmem} {c a : ℕ} {S : SlabT}

theorem Inv.control_mem (H : Inv F O e s) {o : ℕ} (h : s.IsControl o) : o ∈ O := by
  obtain ⟨k, hk, hoffs⟩ := h
  exact (H.control k o hk hoffs).1

theorem Kmem.IsControl.congr {s' : Kmem} (h : ∀ k b, s'.Has k b ↔ s.Has k b) (o : ℕ) :
    s'.IsControl o ↔ s.IsControl o := by
  rw [IsControl, IsControl]
  exact exists_congr fun k => and_congr_left fun _ => h k o

/-! ## One object of a slab -/

theorem SlabT.obj_inj {i j : ℕ} (hok : CacheOk c) (h : S.obj c i = S.obj c j) : i = j := by
  rw [SlabT.obj, SlabT.obj, Nat.add_left_cancel_iff] at h
  exact Nat.eq_of_mul_eq_mul_right hok.objsize h

/-- The first free object is taken. -/
theorem SlabT.Free.take (hok : CacheOk c) (h : S.Free O c) (hlt : S.inuse < (slabCache c).num) :
    S.free < (slabCache c).num ∧ S.obj c S.free ∉ O ∧
    SlabT.Free (insert (S.obj c S.free) O) c
      { S with inuse := S.inuse + 1, free := S.bufctl S.free } ∧
    (S.bufctl S.free = bufctlEnd ↔ S.inuse + 1 = (slabCache c).num) := by
  obtain ⟨l, hchain, hnodup, hmem, hlen⟩ := h
  cases l with
  | nil =>
    rw [List.length_nil] at hlen
    omega
  | cons i l =>
    obtain ⟨hi, -, hrest⟩ := hchain
    subst hi
    rw [List.nodup_cons] at hnodup
    obtain ⟨hlt', hfree⟩ := (hmem S.free).1 (List.mem_cons_self ..)
    rw [List.length_cons] at hlen
    refine ⟨hlt', hfree, ⟨l, hrest, hnodup.2, fun j => ?_, by show S.inuse + 1 + _ = _; omega⟩, ?_⟩
    · show j ∈ l ↔ j < _ ∧ S.obj c j ∉ insert (S.obj c S.free) O
      rw [Finset.mem_insert, not_or]
      constructor
      · intro hj
        obtain ⟨h1, h2⟩ := (hmem j).1 (List.mem_cons_of_mem _ hj)
        refine ⟨h1, fun heq => ?_, h2⟩
        rw [SlabT.obj_inj hok heq] at hj
        exact hnodup.1 hj
      · rintro ⟨h1, h2, h3⟩
        refine (List.mem_cons.1 ((hmem j).2 ⟨h1, h3⟩)).resolve_left ?_
        rintro rfl
        exact h2 rfl
    · rw [← hrest.nil_iff, ← List.length_eq_zero_iff]
      omega

/-- **`kmem_cache_alloc_one`.** -/
theorem allocOne_spec (H : Inv F O e s) (ha : a ∈ s.slabsNotfull c) (he : ∀ b, b ≠ a → e ≠ some b) :
    ∃ o s', kmemCacheAllocOne c a s = .ok (o, s') ∧ o ∉ O ∧ Inv F (insert o O) none s' ∧
      s'.IsObj c o ∧ (∀ k x, s.IsObj k x → s'.IsObj k x) ∧ ∀ k b, s'.Has k b ↔ s.Has k b := by
  obtain ⟨S, hS⟩ := H.slab c a (.inl ha)
  have hat : s.At c a S := ⟨.inl ha, hS⟩
  obtain ⟨hlt, hfree, hnew, hend⟩ := (H.free c a S hat).take (H.cacheOk hat)
    (H.notfull c a S ha hS).1
  have hle : S.inuse + 1 ≤ (slabCache c).num := (H.notfull c a S ha hS).1
  have hget : s.getSlab a = .ok S := by rw [getSlab, hS]; rfl
  set o := S.obj c S.free with ho
  set S' : SlabT := { S with inuse := S.inuse + 1, free := S.bufctl S.free } with hS'
  -- in which list the slab is does not matter for the rest
  have hmain : ∀ s' : Kmem, s'.slab = Function.update s.slab a (some S') → SamePages s s' →
      Relisted c a S'.inuse none s s' →
      Inv F (insert o O) none s' ∧ s'.IsObj c o ∧ (∀ k x, s.IsObj k x → s'.IsObj k x) ∧
      ∀ k b, s'.Has k b ↔ s.Has k b := by
    intro s' hslab hpages hlists
    have hmem : S'.sMem = S.sMem := rfl
    have hisObj : ∀ k x, s.IsObj k x → s'.IsObj k x := fun k x =>
      H.change_isObj hat hmem hslab hlists.has
    refine ⟨H.change hat hmem rfl hslab hpages hlists hnew (fun x hx => ?_) (fun k b hb hoffs => ?_)
      fun b hb heb => absurd heb (he b hb), hisObj c o ⟨a, S, S.free, hat, hlt, ho⟩, hisObj,
        hlists.has⟩
    · rw [Finset.mem_insert]
      exact or_iff_right (hx _ hlt)
    · exact Finset.mem_insert_of_mem (H.control k b hb hoffs).1
  simp only [kmemCacheAllocOne, hget, Res.ok_bind, ← hS']
  by_cases hfull : S'.free = bufctlEnd
  · rw [if_pos hfull]
    refine ⟨o, _, rfl, hfree, hmain _ rfl ⟨rfl, rfl, rfl, rfl⟩ ?_⟩
    exact H.relist_full hat (hend.1 hfull) rfl rfl
  · rw [if_neg hfull]
    refine ⟨o, _, rfl, hfree, hmain _ rfl ⟨rfl, rfl, rfl, rfl⟩ ?_⟩
    refine H.relist_same hat ha ⟨Nat.succ_pos _,
      lt_of_le_of_ne hle fun h => hfull (hend.2 h)⟩ rfl rfl

/-- One more object is in use. -/
theorem used_insert {s' : Kmem} (H : Inv F O e s) {o : ℕ} (ho : o ∉ O)
    (hctl : ∀ b, s'.IsControl b ↔ s.IsControl b) (x : ℕ) :
    Used (insert o O) s' x ↔ x = o ∨ Used O s x := by
  have hno : ¬ s.IsControl o := fun h => ho (H.control_mem h)
  rw [Used, Used, hctl, Finset.mem_insert, or_and_right]
  refine or_congr_left (and_iff_left_of_imp ?_)
  rintro rfl
  exact hno

/-! ## A new slab -/

/-- What `kmem_cache_alloc` may return. -/
def Allocated (F O : Finset ℕ) (c : ℕ) (s : Kmem) (r : Res (Option ℕ × Kmem)) : Prop :=
  (∃ s', r = .ok (none, s') ∧ Inv F O none s' ∧ (∀ k x, s.IsObj k x → s'.IsObj k x) ∧
    ∀ b, s'.IsControl b ↔ s.IsControl b) ∨
  ∃ o s' O', r = .ok (some o, s') ∧ o ∉ O ∧ Inv F O' none s' ∧ s'.IsObj c o ∧
    (∀ k x, s.IsObj k x → s'.IsObj k x) ∧ (∀ x, Used O' s' x ↔ x = o ∨ Used O s x) ∧
    ((slabCache c).offSlab = false → O' = insert o O ∧ ∀ b, s'.IsControl b ↔ s.IsControl b)

/-- What `kmem_cache_grow` may return.  A new slab is the first of its list, and is empty. -/
def Grown (F O : Finset ℕ) (c : ℕ) (s : Kmem) (r : Res (Bool × Kmem)) : Prop :=
  (∃ s', r = .ok (false, s') ∧ Inv F O none s' ∧ (∀ k x, s.IsObj k x → s'.IsObj k x) ∧
    ∀ b, s'.IsControl b ↔ s.IsControl b) ∨
  ∃ a rest s' O', r = .ok (true, s') ∧ O ⊆ O' ∧ Inv F O' (some a) s' ∧
    s'.slabsNotfull c = a :: rest ∧
    (∀ k x, s.IsObj k x → s'.IsObj k x) ∧ (∀ x, Used O' s' x ↔ Used O s x) ∧
    ((slabCache c).offSlab = false → O' = O ∧ ∀ b, s'.IsControl b ↔ s.IsControl b)

/-- Other pages are in use. -/
theorem Inv.withPages (H : Inv F O e s) {F' : Finset ℕ} {pages : Pages}
    (hlive : ∀ q, q ∈ pages.live ↔ q ∈ F' ∨ ∃ c a S, s.At c a S ∧ q ∈ S.pages c)
    (hforeign : ∀ q ∈ F', ∀ c a S, s.At c a S → q ∉ S.pages c) :
    Inv F' O e { s with pages := pages } := by
  refine ⟨H.nodup, H.cache, H.slab, H.known, fun k b T hT => ?_, H.free, H.full, H.notfull,
    H.objects, H.control, hlive, hforeign⟩
  exact (H.placed k b T hT).congr fun _ _ => ⟨rfl, rfl, rfl⟩

/-- `alloc_pages`. -/
theorem Inv.allocPages (H : Inv F O none s) (n : ℕ) :
    (∃ pages, s.pages.alloc n = (none, pages) ∧ Inv F O none { s with pages := pages }) ∨
    ∃ p pages, s.pages.alloc n = (some p, pages) ∧ Disjoint (Pages.range p n) F ∧
      Inv (F ∪ Pages.range p n) O none { s with pages := pages } := by
  rcases s.pages.alloc_cases n with ⟨rest, halloc⟩ | ⟨p, rest, hdisj, halloc⟩
  · exact .inl ⟨_, halloc, H.withPages H.live H.foreign⟩
  · have hF : ∀ q ∈ Pages.range p n, q ∉ s.pages.live := fun q hq => Finset.disjoint_left.1 hdisj hq
    refine .inr ⟨p, _, halloc, ?_, H.withPages (fun q => ?_) fun q hq k b T hT hmem => ?_⟩
    · exact Finset.disjoint_left.2 fun q hq hqF => hF q hq ((H.live q).2 (.inl hqF))
    · rw [Finset.mem_union, Finset.mem_union, H.live q]
      exact or_right_comm
    · rcases Finset.mem_union.1 hq with hq | hq
      · exact H.foreign q hq k b T hT hmem
      · exact hF q hq ((H.live q).2 (.inr ⟨k, b, T, hT, hmem⟩))

/-- `free_pages` on pages that are in no slab. -/
theorem Inv.freePages (H : Inv F O none s) {p n : ℕ} (hF : Pages.range p n ⊆ F) :
    ∃ pages, s.pages.free p n = .ok pages ∧
      Inv (F \ Pages.range p n) O none { s with pages := pages } := by
  have hsub : Pages.range p n ⊆ s.pages.live := fun q hq => (H.live q).2 (.inl (hF hq))
  refine ⟨_, if_pos hsub, H.withPages (fun q => ?_) fun q hq k b T hT => ?_⟩
  · show q ∈ s.pages.live \ Pages.range p n ↔ _
    rw [Finset.mem_sdiff, Finset.mem_sdiff, H.live q]
    constructor
    · rintro ⟨hq | hq, hr⟩
      · exact .inl ⟨hq, hr⟩
      · exact .inr hq
    · rintro (hq | ⟨k, b, T, hT, hq⟩)
      · exact ⟨.inl hq.1, hq.2⟩
      · exact ⟨.inr ⟨k, b, T, hT, hq⟩, fun hr => H.foreign q (hF hr) k b T hT hq⟩
  · exact H.foreign q (Finset.mem_sdiff.1 hq).1 k b T hT

/-- The address of a slab is in a page of some slab. -/
theorem Inv.has_page (H : Inv F O e s) (h : s.Has c a) : a / pgSize ∉ F := by
  obtain ⟨S, hS⟩ := H.slab c a h
  cases hoffs : (slabCache c).offSlab with
  | true => exact H.not_foreign (H.control c a h hoffs).2
  | false =>
    rw [(H.placed c a S ⟨h, hS⟩).own hoffs, Nat.mul_div_left _ (by decide)]
    exact fun hF => H.foreign _ hF c a S ⟨h, hS⟩ (S.page_mem c)

/-- An object of a cache whose slabs begin with their `slab_t` is not the beginning of a slab. -/
theorem Inv.obj_not_slab (H : Inv F O e s) (hin : (slabCache c).offSlab = false) {o k : ℕ}
    (ho : s.IsObj c o) (hk : (slabCache k).offSlab = false) : ¬ s.Has k o := by
  intro hhas
  obtain ⟨b, T, i, hT, hi, hobj⟩ := ho
  obtain ⟨T', hT'⟩ := H.slab k o hhas
  have hat : s.At k o T' := ⟨hhas, hT'⟩
  have hown := (H.placed k o T' hat).own hk
  have hpage : o / pgSize ∈ T'.pages k := by
    rw [hown, Nat.mul_div_left _ (by decide)]
    exact T'.page_mem k
  obtain ⟨rfl, rfl, rfl⟩ := H.at_unique hT hat (hobj ▸ H.obj_page hT hi) hpage
  have hbounds := (H.obj_bounds hT hi).1
  have hroom := (H.cacheOk hT).inside hin
  rw [← hobj, hown, sizeofSlab] at *
  omega

/-- The new slab. -/
def newSlab (c p : ℕ) : SlabT :=
  ⟨p * pgSize + (slabCache c).offset, 0, (slabCache c).offset, 0,
    fun i => if i + 1 = (slabCache c).num then bufctlEnd else i + 1⟩

/-- `kmem_cache_grow` once there is a `slab_t`. -/
theorem initSlab_spec (c a p : ℕ) (s : Kmem) : ∃ s', initSlab c p a (s.setSlab a
      (some ⟨p * pgSize + (slabCache c).offset, 0, (slabCache c).offset, 0, fun _ => 0⟩)) = .ok s' ∧
    Inv.Installed c a p (newSlab c p) s s' := by
  refine ⟨(((s.setPages p (pagesOf c) c a).setSlab a (some (newSlab c p))).addNotfull c a), ?_,
    rfl, rfl, rfl, rfl, rfl, rfl, rfl⟩
  simp only [initSlab, getSlab, setPages, setSlab, Function.update_self, Option.elim_some,
    Res.ok_bind, Function.update_idem]
  rfl

/-- A `slab_t` that has been found is installed. -/
theorem Inv.grown {p : ℕ} {s₁ : Kmem} {O₁ : Finset ℕ} (hc : c < slabCacheNum)
    (hdisj : Disjoint (Pages.range p (pagesOf c)) F)
    (H₁ : Inv (F ∪ Pages.range p (pagesOf c)) O₁ none s₁) (hfresh : ∀ k, ¬ s₁.Has k a)
    (hown : (slabCache c).offSlab = false → a = p * pgSize)
    (hctl : (slabCache c).offSlab = true → a ∈ O₁ ∧ s₁.IsObj (slabCache c).slabCachep a) :
    ∃ rest s', initSlab c p a (s₁.setSlab a (some ⟨p * pgSize + (slabCache c).offset, 0,
        (slabCache c).offset, 0, fun _ => 0⟩)) = .ok s' ∧ Inv F O₁ (some a) s' ∧
      s'.slabsNotfull c = a :: rest ∧ (∀ k x, s₁.IsObj k x → s'.IsObj k x) ∧
      ∀ b, s'.IsControl b ↔ s₁.IsControl b ∨ b = a ∧ (slabCache c).offSlab = true := by
  obtain ⟨s', hrun, hin⟩ := initSlab_spec c a p s₁
  have H' := H₁.install hc Finset.subset_union_right hfresh hown hctl rfl hin
  rw [Finset.union_sdiff_cancel_right hdisj.symm] at H'
  refine ⟨s₁.slabsNotfull c, s', hrun, H', ?_, fun k x => hin.isObj hfresh, fun b => ?_⟩
  · rw [hin.notfull, Function.update_self]
  · constructor
    · rintro ⟨k, hk, hoffs⟩
      rcases (hin.has k b).1 hk with ⟨rfl, rfl⟩ | hk
      · exact .inr ⟨rfl, hoffs⟩
      · exact .inl ⟨k, hk, hoffs⟩
    · rintro (⟨k, hk, hoffs⟩ | ⟨rfl, hoffs⟩)
      · exact ⟨k, (hin.has k b).2 (.inr hk), hoffs⟩
      · exact ⟨c, (hin.has c b).2 (.inl ⟨rfl, rfl⟩), hoffs⟩

/-- **`kmem_cache_grow`**, if what it calls does what it should. -/
theorem grow_spec (H : Inv F O none s) (hc : c < slabCacheNum)
    {alloc : ℕ → Kmem → Res (Option ℕ × Kmem)}
    (halloc : (slabCache c).offSlab = true → ∀ F' s₁, Inv F' O none s₁ →
      Allocated F' O (slabCache c).slabCachep s₁ (alloc (slabCache c).slabCachep s₁)) :
    Grown F O c s (kmemCacheGrow alloc c s) := by
  rw [kmemCacheGrow]
  rcases H.allocPages (pagesOf c) with ⟨pages, hp, H₁⟩ | ⟨p, pages, hp, hdisj, H₁⟩
  · rw [show s.pages.alloc (1 <<< (slabCache c).pageOrder) = (none, pages) from hp]
    exact .inl ⟨_, rfl, H₁, fun _ _ h => h, fun _ => Iff.rfl⟩
  · rw [show s.pages.alloc (1 <<< (slabCache c).pageOrder) = (some p, pages) from hp]
    have hsub : Pages.range p (pagesOf c) ⊆ F ∪ Pages.range p (pagesOf c) :=
      Finset.subset_union_right
    cases hoffs : (slabCache c).offSlab with
    | false =>
      have hpF : p * pgSize / pgSize ∈ F ∪ Pages.range p (pagesOf c) := by
        rw [Nat.mul_div_left _ (by decide)]
        refine hsub ((newSlab c p).page_mem c |> fun h => ?_)
        rwa [SlabT.pages, SlabT.page, newSlab, Nat.add_sub_cancel,
          Nat.mul_div_left _ (by decide)] at h
      obtain ⟨rest, s', hinit, H', hlist, hisObj, hctl⟩ := Inv.grown hc hdisj H₁
        (fun k hk => H₁.has_page hk hpF) (fun _ => rfl) (fun h => by rw [hoffs] at h; cases h)
      have hsame : ∀ b, s'.IsControl b ↔ s.IsControl b := fun b => by
        rw [hctl, hoffs]
        exact or_iff_left fun h => absurd h.2 Bool.false_ne_true
      refine .inr ⟨_, rest, s', O, ?_, Finset.Subset.refl O, H', hlist, hisObj, fun x => ?_,
        fun _ => ⟨rfl, hsame⟩⟩
      · simp only [kmemCacheSlabmgmt, hoffs, Bool.false_eq_true, if_false, Res.ok_bind, Res.pure_eq,
          hinit]
      · rw [Used, Used, hsame]
    | true =>
      obtain ⟨hk, hin, -⟩ := (cacheOk hc).outside hoffs
      rcases halloc hoffs _ _ H₁ with
        ⟨s₂, hrun, H₂, hkeep, hctl⟩ | ⟨a, s₂, O', hrun, ha, H₂, hobj, hkeep, -, hO'⟩
      · obtain ⟨pages', hfree, H₃⟩ := H₂.freePages hsub
        rw [Finset.union_sdiff_cancel_right hdisj.symm] at H₃
        refine .inl ⟨{ s₂ with pages := pages' }, ?_, H₃, hkeep, hctl⟩
        have hfree' : s₂.pages.free p (1 <<< (slabCache c).pageOrder) = .ok pages' := hfree
        simp only [kmemCacheSlabmgmt, hoffs, if_true, hrun, Res.ok_bind, Res.pure_eq, hfree']
      · obtain ⟨rfl, hctl⟩ := hO' hin
        -- the new object holds no `slab_t` yet
        have hfresh : ∀ k, ¬ s₂.Has k a := by
          intro k hk
          cases hoffk : (slabCache k).offSlab with
          | true => exact ha (H₁.control_mem ((hctl a).1 ⟨k, hk, hoffk⟩))
          | false => exact H₂.obj_not_slab hin hobj hoffk hk
        obtain ⟨rest, s', hinit, H', hlist, hisObj, hctl'⟩ := Inv.grown hc hdisj H₂ hfresh
          (fun h => by rw [hoffs] at h; cases h) (fun _ => ⟨Finset.mem_insert_self a O, hobj⟩)
        refine .inr ⟨a, rest, s', insert a O, ?_, Finset.subset_insert a O, H', hlist,
          fun k x hx => hisObj k x (hkeep k x hx), fun x => ?_, fun h => by
            rw [hoffs] at h; cases h⟩
        · simp only [kmemCacheSlabmgmt, hoffs, if_true, hrun, Res.ok_bind, Res.pure_eq, hinit]
        · rw [Used, Used, hctl', hctl, hoffs, Finset.mem_insert]
          have hne : x ∈ O → x ≠ a := fun hx h => ha (h ▸ hx)
          have hs : ({ s with pages := pages } : Kmem).IsControl x ↔ s.IsControl x := Iff.rfl
          rw [hs]
          tauto

/-- **`kmem_cache_alloc`**, if `kmem_cache_grow` does what it should. -/
theorem alloc_of_grow {fuel : ℕ} (H : Inv F O none s)
    (hgrow : Grown F O c s (kmemCacheGrow (kmemCacheAlloc (fuel + 1)) c s)) :
    Allocated F O c s (kmemCacheAlloc (fuel + 2) c s) := by
  rw [kmemCacheAlloc]
  cases hlist : s.slabsNotfull c with
  | cons a rest =>
    have ha : a ∈ s.slabsNotfull c := by rw [hlist]; exact List.mem_cons_self ..
    obtain ⟨o, s', hrun, ho, H', hobj, hkeep, hhas⟩ := allocOne_spec H ha fun b _ h => by cases h
    have hsame := Kmem.IsControl.congr hhas
    refine .inr ⟨o, s', insert o O, by simp only [hrun, Res.ok_bind, Res.pure_eq], ho, H', hobj,
      hkeep, fun x => ?_, fun _ => ⟨rfl, hsame⟩⟩
    exact used_insert H ho hsame x
  | nil =>
    rcases hgrow with
      ⟨s', hrun, H', hkeep, hctl⟩ | ⟨a, rest, s₁, O₁, hrun, hsub, H₁, hlist₁, hkeep, hused, hin⟩
    · exact .inl ⟨s', by simp only [hrun, Res.ok_bind, Bool.false_eq_true, if_false, Res.pure_eq],
        H', hkeep, hctl⟩
    · have ha : a ∈ s₁.slabsNotfull c := by rw [hlist₁]; exact List.mem_cons_self ..
      obtain ⟨o, s', hrun', ho, H', hobj, hkeep', hhas⟩ := allocOne_spec H₁ ha
        fun b hb h => hb (Option.some.inj h).symm
      have hsame := Kmem.IsControl.congr hhas
      refine .inr ⟨o, s', insert o O₁, ?_, fun h => ho (hsub h), H', hobj,
        fun k x hx => hkeep' k x (hkeep k x hx), fun x => ?_, fun hoffs => ?_⟩
      · simp only [hrun, Res.ok_bind, if_true]
        rw [kmemCacheAlloc, hlist₁]
        simp only [hrun', Res.ok_bind, Res.pure_eq]
      · rw [used_insert H₁ ho hsame, hused]
      · obtain ⟨rfl, hctl⟩ := hin hoffs
        exact ⟨rfl, fun b => (hsame b).trans (hctl b)⟩

/-- **`kmem_cache_alloc`** always returns. -/
theorem alloc_spec (H : Inv F O none s) (hc : c < slabCacheNum) :
    Allocated F O c s (kmemCacheAlloc 3 c s) := by
  refine alloc_of_grow H (grow_spec H hc fun hoffs F' s₁ H₁ => ?_)
  -- the cache for the `slab_t` needs no other cache
  obtain ⟨hk, hin, -⟩ := (cacheOk hc).outside hoffs
  refine alloc_of_grow H₁ (grow_spec H₁ hk fun h => ?_)
  rw [hin] at h
  cases h

end Slab

end Ucore
