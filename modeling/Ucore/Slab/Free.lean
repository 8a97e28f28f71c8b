import Ucore.Slab.Alloc
import Mathlib.Data.Finset.Card

/-!
# Release of objects

`kmem_cache_free` puts an object at the front of the free objects of its slab.  A slab without
objects in use is destroyed at once, and if its `slab_t` is an object of another cache then this one
is freed too, which may destroy a slab of that cache in turn.  `kfree_spec` says that `kfree` always
returns, and that exactly the object it is given is no longer in use.

* `SlabT.Free.inuse_eq` — `inuse` is the number of objects that are not in the chain, so the test
  whether it is 0 is the test whether nothing is in use.
* `SlabT.Free.give` — the object is put at the front of the chain.
* `destroy_spec` — a slab goes.  Its `slab_t`, if it is an object, is freed behind that, when no
  list has the slab any more.
* `freeOne_spec` and `free_of` — the functions that call each other, each of them if what it calls
  does what it should;
* `free_spec` — and without the condition, since there are only two levels.
-/

set_option autoImplicit false

namespace Ucore

namespace Slab

open Kmem

variable {F O : Finset ℕ} {e : Option ℕ} {s : Kmem} {c a : ℕ} {S : SlabT}

/-! ## One object of a slab -/

/-- **The number of objects in use** is what `inuse` says. -/
theorem SlabT.Free.inuse_eq (h : S.Free O c) :
    S.inuse = ((Finset.range (slabCache c).num).filter fun i => S.obj c i ∈ O).card := by
  obtain ⟨l, -, hnodup, hmem, hlen⟩ := h
  have hfree : (Finset.range (slabCache c).num).filter (fun i => S.obj c i ∉ O) = l.toFinset := by
    ext i
    rw [Finset.mem_filter, Finset.mem_range, List.mem_toFinset, hmem i]
  have hsum := Finset.card_filter_add_card_filter_not (s := Finset.range (slabCache c).num)
    fun i => S.obj c i ∈ O
  rw [hfree, List.toFinset_card_of_nodup hnodup, Finset.card_range] at hsum
  omega

theorem SlabT.Free.inuse_pos (h : S.Free O c) {i : ℕ} (hi : i < (slabCache c).num)
    (ho : S.obj c i ∈ O) : 0 < S.inuse := by
  rw [h.inuse_eq, Finset.card_pos]
  exact ⟨i, Finset.mem_filter.2 ⟨Finset.mem_range.2 hi, ho⟩⟩

theorem SlabT.Free.not_mem (h : S.Free O c) (hzero : S.inuse = 0) {i : ℕ}
    (hi : i < (slabCache c).num) :
    S.obj c i ∉ O := by
  intro ho
  have hpos := h.inuse_pos hi ho
  omega

/-- An object is put at the front of the free ones. -/
theorem SlabT.Free.give (hok : CacheOk c) (h : S.Free O c) {i : ℕ} (hi : i < (slabCache c).num)
    (ho : S.obj c i ∈ O) :
    SlabT.Free (O.erase (S.obj c i)) c
      { S with bufctl := Function.update S.bufctl i S.free, free := i, inuse := S.inuse - 1 } := by
  have hpos := h.inuse_pos hi ho
  obtain ⟨l, hchain, hnodup, hmem, hlen⟩ := h
  have hil : i ∉ l := fun hl => ((hmem i).1 hl).2 ho
  have hstop : i ≠ bufctlEnd := ne_of_lt (hi.trans hok.num_lt)
  refine ⟨i :: l, hchain.push hil hstop, List.nodup_cons.2 ⟨hil, hnodup⟩, fun j => ?_, ?_⟩
  · show j ∈ i :: l ↔ j < _ ∧ S.obj c j ∉ O.erase (S.obj c i)
    rw [List.mem_cons, hmem j, Finset.mem_erase, not_and_or, not_not]
    constructor
    · rintro (rfl | ⟨hj, hjO⟩)
      · exact ⟨hi, .inl rfl⟩
      · exact ⟨hj, .inr hjO⟩
    · rintro ⟨hj, heq | hjO⟩
      · exact .inl (SlabT.obj_inj hok heq)
      · exact .inr ⟨hj, hjO⟩
  · show S.inuse - 1 + (l.length + 1) = _
    omega

/-- The number of an object. -/
theorem SlabT.objnr (hok : CacheOk c) (i : ℕ) :
    (S.obj c i - S.sMem) / (slabCache c).objsize = i := by
  rw [SlabT.obj, Nat.add_sub_cancel_left, Nat.mul_div_left _ hok.objsize]

/-! ## A slab without objects -/

/-- What `kmem_cache_free` does. -/
def Freed (F O : Finset ℕ) (o : ℕ) (s : Kmem) (r : Res Kmem) : Prop :=
  ∃ s' O', r = .ok s' ∧ Inv F O' none s' ∧ O' ⊆ O ∧ (∀ k x, x ∈ O' → s.IsObj k x → s'.IsObj k x) ∧
    ∀ x, Used O' s' x ↔ x ≠ o ∧ Used O s x

/-- What `kmem_slab_destroy` does before it frees the `slab_t`. -/
theorem destroy_eq (H : Inv F O none s) (hat : s.At c a S) {s₁ : Kmem} {S₁ : SlabT}
    (free : ℕ → ℕ → Kmem → Res Kmem) (hslab : s₁.slab = Function.update s.slab a (some S₁))
    (hmem : S₁.sMem = S.sMem) (hoff : S₁.offset = S.offset) (hpages : SamePages s s₁)
    (hfull : s₁.slabsFull = (s.listDel a).slabsFull)
    (hnotfull : s₁.slabsNotfull = (s.listDel a).slabsNotfull) :
    ∃ s₂, Inv.Removed c a S s s₂ ∧ kmemSlabDestroy free c a s₁ =
      if (slabCache c).offSlab then free (slabCache c).slabCachep a s₂ else .ok s₂ := by
  have hget : s₁.getSlab a = .ok S₁ := by
    rw [getSlab, hslab, Function.update_self]
    rfl
  have hpage : (S₁.sMem - S₁.offset) / pgSize = S.page := by rw [hmem, hoff, SlabT.page]
  have hassert : ∀ q ∈ Pages.range S.page (1 <<< (slabCache c).pageOrder),
      s₁.pageSlab q = true := by
    intro q hq
    rw [hpages.pageSlab]
    exact ((H.placed c a S hat).pages q hq).1
  have hsub : S.pages c ⊆ s.pages.live := fun q hq => (H.live q).2 (.inr ⟨c, a, S, hat, hq⟩)
  have hfree : s₁.pages.free S.page (1 <<< (slabCache c).pageOrder) =
      .ok { s.pages with live := s.pages.live \ S.pages c } := by
    rw [hpages.pages]
    exact if_pos hsub
  refine ⟨{ (s₁.clearPages S.page (pagesOf c)).setSlab a none with
    pages := { s.pages with live := s.pages.live \ S.pages c } }, ⟨?_, rfl, fun q hq => ?_,
    hfull, hnotfull⟩, ?_⟩
  · show Function.update s₁.slab a none = _
    rw [hslab, Function.update_idem]
  · refine ⟨(if_neg hq).trans (congrFun hpages.pageSlab q), congrFun hpages.pageCache q,
      congrFun hpages.pageSlabp q⟩
  · simp only [kmemSlabDestroy, hget, Res.ok_bind, hpage, assert_pos hassert, Kmem.clearPages,
      setSlab, hfree, Res.pure_eq]
    rfl

/-- The objects that are in use when one that holds no `slab_t` is not in use any more. -/
theorem Inv.control_erase (H : Inv F O e s) {o : ℕ} (hno : ¬ s.IsControl o) {k b : ℕ}
    (hb : s.Has k b)
    (hoffs : (slabCache k).offSlab = true) : b ∈ O.erase o := by
  refine Finset.mem_erase.2 ⟨?_, (H.control k b hb hoffs).1⟩
  rintro rfl
  exact hno ⟨k, hb, hoffs⟩

theorem mem_erase_obj {i x : ℕ} (hi : i < (slabCache c).num)
    (hx : ∀ j < (slabCache c).num, x ≠ S.obj c j) :
    x ∈ O.erase (S.obj c i) ↔ x ∈ O := by
  rw [Finset.mem_erase]
  exact and_iff_right (hx i hi)

/-- The last object of a slab is freed. -/
theorem destroy_spec (H : Inv F O none s) (hat : s.At c a S) {i : ℕ} (hi : i < (slabCache c).num)
    (hu : Used O s (S.obj c i)) (hlast : S.inuse = 1) {s₂ : Kmem} (hrem : Inv.Removed c a S s s₂)
    {free : ℕ → ℕ → Kmem → Res Kmem}
    (hfree : (slabCache c).offSlab = true → ∀ O₁ s₁, Inv F O₁ none s₁ → Used O₁ s₁ a →
      s₁.IsObj (slabCache c).slabCachep a → Freed F O₁ a s₁ (free (slabCache c).slabCachep a s₁)) :
    Freed F O (S.obj c i) s
      (if (slabCache c).offSlab then free (slabCache c).slabCachep a s₂ else .ok s₂) := by
  have hok := H.cacheOk hat
  have hgone : ∀ j < (slabCache c).num, S.obj c j ∉ O.erase (S.obj c i) := fun j hj =>
    ((H.free c a S hat).give hok hi hu.1).not_mem (show S.inuse - 1 = 0 by omega) hj
  obtain ⟨H₂, hhas, hkeep⟩ := H.remove hat hrem hgone (fun x hx => mem_erase_obj hi hx)
    fun k b hb _ hoffs => H.control_erase hu.2 hb hoffs
  have hctl₂ : ∀ x, s₂.IsControl x ↔ x ≠ a ∧ s.IsControl x := by
    intro x
    rw [IsControl, IsControl, ← exists_and_left]
    exact exists_congr fun k => by rw [hhas, and_assoc]
  cases hoffs : (slabCache c).offSlab with
  | false =>
    have hno : ¬ s.IsControl a := by
      rintro ⟨k, hk, hoffk⟩
      rw [H.has_unique hat hk, hoffs] at hoffk
      cases hoffk
    refine ⟨s₂, O.erase (S.obj c i), rfl, H₂, Finset.erase_subset _ O, hkeep, fun x => ?_⟩
    have hsame : s₂.IsControl x ↔ s.IsControl x := by
      rw [hctl₂ x]
      refine and_iff_right_of_imp ?_
      rintro hx rfl
      exact hno hx
    rw [Used, Used, hsame, Finset.mem_erase, and_assoc]
  | true =>
    have hcontrol : s.IsControl a := ⟨c, hat.1, hoffs⟩
    have haO := H.control_erase hu.2 hat.1 hoffs
    have hused : Used (O.erase (S.obj c i)) s₂ a := ⟨haO, fun h => ((hctl₂ a).1 h).1 rfl⟩
    -- what was the `slab_t` is now an object like any other
    obtain ⟨s', O', hfin, H', hsub, hkeep', hused'⟩ :=
      hfree hoffs _ _ H₂ hused (hkeep _ a haO (H.control c a hat.1 hoffs).2)
    refine ⟨s', O', hfin, H', hsub.trans (Finset.erase_subset _ O),
      fun k x hx hobj => hkeep' k x hx (hkeep k x (hsub hx) hobj), fun x => ?_⟩
    rw [hused', Used, Used, hctl₂, Finset.mem_erase]
    constructor
    · rintro ⟨hxa, ⟨hxo, hxO⟩, hx⟩
      exact ⟨hxo, hxO, fun h => hx ⟨hxa, h⟩⟩
    · rintro ⟨hxo, hxO, hx⟩
      exact ⟨fun h => hx (h ▸ hcontrol), ⟨hxo, hxO⟩, fun h => hx h.2⟩

/-- **`kmem_cache_free_one`**, if what it calls does what it should. -/
theorem freeOne_spec (H : Inv F O none s) (hat : s.At c a S) {i : ℕ} (hi : i < (slabCache c).num)
    (hu : Used O s (S.obj c i)) {free : ℕ → ℕ → Kmem → Res Kmem}
    (hfree : (slabCache c).offSlab = true → ∀ O₁ s₁, Inv F O₁ none s₁ → Used O₁ s₁ a →
      s₁.IsObj (slabCache c).slabCachep a → Freed F O₁ a s₁ (free (slabCache c).slabCachep a s₁)) :
    Freed F O (S.obj c i) s (kmemCacheFreeOne free c a (S.obj c i) s) := by
  have hok := H.cacheOk hat
  have hget : s.getSlab a = .ok S := by
    rw [getSlab, hat.2]
    rfl
  have hpos := (H.free c a S hat).inuse_pos hi hu.1
  have hle := H.inuse_le hat
  have hnew := (H.free c a S hat).give hok hi hu.1
  set S' : SlabT :=
    { S with bufctl := Function.update S.bufctl i S.free, free := i, inuse := S.inuse - 1 } with hS'
  have hkeep : ∀ s' : Kmem, s'.slab = Function.update s.slab a (some S') → SamePages s s' →
      Relisted c a S'.inuse none s s' → Freed F O (S.obj c i) s (.ok s') := by
    intro s' hslab hpages hlists
    have hmem : S'.sMem = S.sMem := rfl
    refine ⟨s', O.erase (S.obj c i), rfl, H.change hat hmem rfl hslab hpages hlists hnew
      (fun x hx => mem_erase_obj hi hx) (fun k b hb hoffs => H.control_erase hu.2 hb hoffs)
      fun b _ h => absurd h (Option.some_ne_none b).symm, Finset.erase_subset _ O,
      fun k x _ => H.change_isObj hat hmem hslab hlists.has, fun x => ?_⟩
    rw [Used, Used, Kmem.IsControl.congr hlists.has, Finset.mem_erase, and_assoc]
  have hinuse : S'.inuse = S.inuse - 1 := rfl
  have hrun : kmemCacheFreeOne free c a (S.obj c i) s =
      if S'.inuse = 0 then kmemSlabDestroy free c a ((s.setSlab a (some S')).listDel a)
      else if S'.inuse = (slabCache c).num - 1 then
        .ok (((s.setSlab a (some S')).listDel a).addNotfull c a)
      else .ok (s.setSlab a (some S')) := by
    simp only [kmemCacheFreeOne, hget, Res.ok_bind, SlabT.objnr hok i, ← hS', Res.pure_eq]
    rfl
  rw [hrun]
  by_cases hzero : S'.inuse = 0
  · rw [if_pos hzero]
    have hslab : ((s.setSlab a (some S')).listDel a).slab = Function.update s.slab a (some S') :=
      rfl
    obtain ⟨s₂, hrem, hdestroy⟩ := destroy_eq H hat free hslab rfl rfl ⟨rfl, rfl, rfl, rfl⟩ rfl rfl
    rw [hdestroy]
    exact destroy_spec H hat hi hu (by omega) hrem hfree
  · rw [if_neg hzero]
    by_cases hlast : S'.inuse = (slabCache c).num - 1
    · rw [if_pos hlast]
      exact hkeep _ rfl ⟨rfl, rfl, rfl, rfl⟩ (H.relist_notfull hat (by omega) rfl rfl)
    · rw [if_neg hlast]
      have hin : a ∈ s.slabsNotfull c := by
        refine hat.1.resolve_right fun hfull => ?_
        have hnum := H.full c a S hfull hat.2
        omega
      exact hkeep _ rfl ⟨rfl, rfl, rfl, rfl⟩ (H.relist_same hat hin (by omega) rfl rfl)

/-! ## The operations -/

/-- **`kmem_cache_free`**, if what it calls does what it should. -/
theorem free_of {fuel o : ℕ} (H : Inv F O none s) (hu : Used O s o) (hobj : s.IsObj c o)
    (hfree : (slabCache c).offSlab = true → ∀ a O₁ s₁, Inv F O₁ none s₁ → Used O₁ s₁ a →
      s₁.IsObj (slabCache c).slabCachep a →
      Freed F O₁ a s₁ (kmemCacheFree fuel (slabCache c).slabCachep a s₁)) :
    Freed F O o s (kmemCacheFree (fuel + 1) c o s) := by
  obtain ⟨a, S, i, hat, hi, rfl⟩ := hobj
  obtain ⟨hslab, -, hslabp⟩ := (H.placed c a S hat).pages _ (H.obj_page hat hi)
  rw [kmemCacheFree, hslab, hslabp]
  exact freeOne_spec H hat hi hu fun hoffs => hfree hoffs a

/-- **`kmem_cache_free`** always returns. -/
theorem free_spec {o : ℕ} (H : Inv F O none s) (hu : Used O s o) (hobj : s.IsObj c o) :
    Freed F O o s (kmemCacheFree 2 c o s) := by
  refine free_of H hu hobj fun hoffs a O₁ s₁ H₁ hu₁ hobj₁ => free_of H₁ hu₁ hobj₁ fun h => ?_
  -- the cache of the `slab_t` needs no other cache
  obtain ⟨b, T, j, hT, -, -⟩ := hobj
  rw [((H.cacheOk hT).outside hoffs).2.1] at h
  cases h

/-- **`kfree`** finds the cache of an object in use. -/
theorem kfree_spec {o : ℕ} (H : Inv F O none s) (hu : Used O s o) : Freed F O o s (kfree o s) := by
  obtain ⟨c, hobj⟩ := H.objects o hu.1
  obtain ⟨a, S, i, hat, hi, rfl⟩ := id hobj
  rw [kfree, ((H.placed c a S hat).pages _ (H.obj_page hat hi)).2.1]
  exact free_spec H hu hobj

end Slab

end Ucore
