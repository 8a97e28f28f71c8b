import Ucore.Slab.Client

/-!
# The memory of the kernel

The slab allocator with the buddy allocator below it.  A run consists of calls of `kmalloc` and
`kfree`, and in between others allocate and free pages directly.  The set `F` of the pages that
belong to these others and the set `L` of the objects in use are computed from the calls alone.

`memory_safe` is about every state of every run: no call stops, no memory is handed out twice, by
neither of the allocators, and the free pages are exactly those that nobody has.  What is used of
the slab allocator holds for any page allocator, and what is used of the buddy allocator holds for
any client, so the two only meet in `refines_buddy_separated`.

* `Inv` — the invariant: the two allocators have the same pages in use.
* `Inv.kmalloc`, `Inv.kfree` — the calls, by `kmalloc_ok` and `kfree_ok` with the buddy allocator in
  the place of the specification;
* `HoldsOn.others` — what others do changes `F` only;
* `Reach.inv` — the induction on the run.
-/

set_option autoImplicit false

namespace Ucore

namespace Slab

open PageCall

/-- The states of both allocators. -/
structure Memory where
  kmem : Kmem
  buddy : Buddy

namespace Memory

/-- `kmalloc` -/
def kmalloc (npage size : ℕ) (m : Memory) : Res (Option ℕ × Memory) := do
  let ((r, kmem), buddy) ← (Caller.kmalloc size m.kmem).run (buddyHandler npage) m.buddy
  return (r, ⟨kmem, buddy⟩)

/-- `kfree` -/
def kfree (npage objp : ℕ) (m : Memory) : Res Memory := do
  let (kmem, buddy) ← (Caller.kfree objp m.kmem).run (buddyHandler npage) m.buddy
  return ⟨kmem, buddy⟩

/-- The page belongs to a slab. -/
def SlabPage (m : Memory) (q : ℕ) : Prop := ∃ c a S, m.kmem.At c a S ∧ q ∈ S.pages c

/-- The states that runs lead to, with the pages of others, the objects in use and the sizes that
were asked for.  At the start there are no slabs, and all allocated pages belong to others. -/
inductive Reach (npage : ℕ) (zs : List Zone) : Memory → Finset ℕ → Finset ℕ → (ℕ → ℕ) → Prop
  | start {kmem : Kmem} {buddy : Buddy} {F : Finset ℕ} : Start kmem → buddy.Reach npage zs F →
      Reach npage zs ⟨kmem, buddy⟩ F ∅ fun _ => 0
  | kmalloc {m m' : Memory} {F L : Finset ℕ} {sz : ℕ → ℕ} {size o : ℕ} : Reach npage zs m F L sz →
      1 ≤ size → size ≤ 2 ^ maxSizeOrder → m.kmalloc npage size = .ok (some o, m') →
      Reach npage zs m' F (insert o L) (Function.update sz o size)
  | kmallocFail {m m' : Memory} {F L : Finset ℕ} {sz : ℕ → ℕ} {size : ℕ} : Reach npage zs m F L sz →
      1 ≤ size → size ≤ 2 ^ maxSizeOrder → m.kmalloc npage size = .ok (none, m') →
      Reach npage zs m' F L sz
  | kfree {m m' : Memory} {F L : Finset ℕ} {sz : ℕ → ℕ} {o : ℕ} : Reach npage zs m F L sz → o ∈ L →
      m.kfree npage o = .ok m' → Reach npage zs m' F (L.erase o) sz
  | alloc {m : Memory} {buddy : Buddy} {F L : Finset ℕ} {sz : ℕ → ℕ} {n p : ℕ} :
      Reach npage zs m F L sz → 0 < n → n ≤ 2 ^ maxOrder →
      buddyAllocPages npage m.buddy n = .ok (some p, buddy) →
      Reach npage zs ⟨m.kmem, buddy⟩ (F ∪ Pages.range p n) L sz
  | allocFail {m : Memory} {buddy : Buddy} {F L : Finset ℕ} {sz : ℕ → ℕ} {n : ℕ} :
      Reach npage zs m F L sz → 0 < n → n ≤ 2 ^ maxOrder →
      buddyAllocPages npage m.buddy n = .ok (none, buddy) → Reach npage zs ⟨m.kmem, buddy⟩ F L sz
  | free {m : Memory} {buddy : Buddy} {F L : Finset ℕ} {sz : ℕ → ℕ} {p n : ℕ} :
      Reach npage zs m F L sz → Buddy.FreeOk zs F p n →
      buddyFreePages npage m.buddy p n = .ok buddy →
      Reach npage zs ⟨m.kmem, buddy⟩ (F \ Pages.range p n) L sz
  | own {m : Memory} {buddy : Buddy} {F L : Finset ℕ} {sz : ℕ → ℕ} {p : ℕ} :
      Reach npage zs m F L sz → p ∈ F ∨ m.SlabPage p → Buddy.Owned m.buddy buddy p →
      Reach npage zs ⟨m.kmem, buddy⟩ F L sz

variable {npage : ℕ} {zs : List Zone} {m : Memory} {F L : Finset ℕ} {sz : ℕ → ℕ}

/-- The invariant: the pages in use are the same for both allocators. -/
structure Inv (npage : ℕ) (zs : List Zone) (m : Memory) (F L : Finset ℕ) (sz : ℕ → ℕ)
    (A : Finset ℕ) : Prop where
  buddy : m.buddy.Reach npage zs A
  kmem : HoldsOn F L sz m.kmem A

end Memory

variable {F L A : Finset ℕ} {sz : ℕ → ℕ} {s : Kmem}

theorem HoldsOn.mem_iff (h : HoldsOn F L sz s A) (q : ℕ) :
    q ∈ A ↔ q ∈ F ∨ ∃ c a S, s.At c a S ∧ q ∈ S.pages c := by
  obtain ⟨O, hO⟩ := h
  exact hO.inv.live q

theorem HoldsOn.foreign (h : HoldsOn F L sz s A) :
    ∀ q ∈ F, ∀ c a S, s.At c a S → q ∉ S.pages c := by
  obtain ⟨O, hO⟩ := h
  exact hO.inv.foreign

/-- Others have got pages, or have given some back. -/
theorem HoldsOn.others (h : HoldsOn F L sz s A) {F' A' : Finset ℕ}
    (hlive : ∀ q, q ∈ A' ↔ q ∈ F' ∨ ∃ c a S, s.At c a S ∧ q ∈ S.pages c)
    (hforeign : ∀ q ∈ F', ∀ c a S, s.At c a S → q ∉ S.pages c) : HoldsOn F' L sz s A' := by
  obtain ⟨O, hO⟩ := h
  have hinv : Slab.Inv F' O none { s.on ⟨A, []⟩ with pages := ⟨A', []⟩ } :=
    hO.inv.withPages hlive hforeign
  exact ⟨O, hinv, hO.used, hO.size⟩

theorem HoldsOn.alloc (h : HoldsOn F L sz s A) {p n : ℕ} (hdisj : Disjoint (Pages.range p n) A) :
    HoldsOn (F ∪ Pages.range p n) L sz s (A ∪ Pages.range p n) := by
  refine h.others (fun q => ?_) fun q hq c a S hat hmem => ?_
  · rw [Finset.mem_union, Finset.mem_union, h.mem_iff q]
    exact or_right_comm
  · rcases Finset.mem_union.1 hq with hq | hq
    · exact h.foreign q hq c a S hat hmem
    · exact Finset.disjoint_left.1 hdisj hq ((h.mem_iff q).2 (.inr ⟨c, a, S, hat, hmem⟩))

theorem HoldsOn.free (h : HoldsOn F L sz s A) {p n : ℕ} (hsub : Pages.range p n ⊆ F) :
    HoldsOn (F \ Pages.range p n) L sz s (A \ Pages.range p n) := by
  refine h.others (fun q => ?_) fun q hq => h.foreign q (Finset.mem_sdiff.1 hq).1
  rw [Finset.mem_sdiff, Finset.mem_sdiff, h.mem_iff q]
  constructor
  · rintro ⟨hq | hq, hr⟩
    · exact .inl ⟨hq, hr⟩
    · exact .inr hq
  · rintro (hq | ⟨c, a, S, hat, hq⟩)
    · exact ⟨.inl hq.1, hq.2⟩
    · exact ⟨.inr ⟨c, a, S, hat, hq⟩, fun hr => h.foreign q (hsub hr) c a S hat hq⟩

namespace Memory

variable {npage : ℕ} {zs : List Zone} {m : Memory} {size o : ℕ}

/-- A call of `kmalloc`. -/
theorem Inv.kmalloc (hsep : Separated zs) (H : Inv npage zs m F L sz A) (hpos : 1 ≤ size)
    (hle : size ≤ 2 ^ maxSizeOrder) :
    ∃ r m' A', m.kmalloc npage size = .ok (r, m') ∧ m'.buddy.Reach npage zs A' ∧
      Kmalloced F L sz size m.kmem (r, m'.kmem) A' := by
  obtain ⟨⟨r, kmem⟩, buddy, A', hrun, hQ, hR⟩ := (kmalloc_ok H.kmem hpos hle).run
    (refines_buddy_separated npage hsep) (calls_kmalloc size m.kmem) H.buddy
  refine ⟨r, ⟨kmem, buddy⟩, A', ?_, hR, hQ⟩
  rw [Memory.kmalloc, hrun]
  rfl

/-- A call of `kfree`. -/
theorem Inv.kfree (hsep : Separated zs) (H : Inv npage zs m F L sz A) (ho : o ∈ L) :
    ∃ m' A', m.kfree npage o = .ok m' ∧ Inv npage zs m' F (L.erase o) sz A' := by
  obtain ⟨kmem, buddy, A', hrun, hQ, hR⟩ := (kfree_ok H.kmem ho).run
    (refines_buddy_separated npage hsep) (calls_free 2 _ o m.kmem) H.buddy
  refine ⟨⟨kmem, buddy⟩, A', ?_, hR, hQ⟩
  rw [Memory.kfree, hrun]
  rfl

/-- **Every run keeps the invariant.** -/
theorem Reach.inv (hsep : Separated zs) (h : Reach npage zs m F L sz) :
    ∃ A, Inv npage zs m F L sz A := by
  induction h with
  | @start kmem buddy F hstart hbuddy =>
    refine ⟨F, hbuddy, ∅, ?_⟩
    have hstart' : Start (kmem.on ⟨F, []⟩) := hstart
    exact hstart'.holds _
  | kmalloc _ hpos hle hrun ih =>
    obtain ⟨A, H⟩ := ih
    obtain ⟨r, m', A', hrun', hR, hQ⟩ := H.kmalloc hsep hpos hle
    rw [hrun, Except.ok.injEq, Prod.mk.injEq] at hrun'
    obtain ⟨rfl, rfl⟩ := hrun'
    exact ⟨A', hR, hQ.2⟩
  | kmallocFail _ hpos hle hrun ih =>
    obtain ⟨A, H⟩ := ih
    obtain ⟨r, m', A', hrun', hR, hQ⟩ := H.kmalloc hsep hpos hle
    rw [hrun, Except.ok.injEq, Prod.mk.injEq] at hrun'
    obtain ⟨rfl, rfl⟩ := hrun'
    exact ⟨A', hR, hQ⟩
  | kfree _ ho hrun ih =>
    obtain ⟨A, H⟩ := ih
    obtain ⟨m', A', hrun', H'⟩ := H.kfree hsep ho
    rw [hrun, Except.ok.injEq] at hrun'
    subst hrun'
    exact ⟨A', H'⟩
  | @alloc m buddy F L sz n p _ hpos hn hrun ih =>
    obtain ⟨A, H⟩ := ih
    have hdisj : Disjoint (Pages.range p n) A := by
      rcases H.buddy.inv.buddyAllocPages_spec hpos hn with hnone | ⟨p', s', hsome, -, -, hfree, -⟩
      · rw [hrun] at hnone
        simp at hnone
      · rw [hrun, Except.ok.injEq, Prod.mk.injEq, Option.some_inj] at hsome
        rw [hsome.1]
        exact Finset.disjoint_left.2 hfree
    exact ⟨_, H.buddy.alloc hpos hn hrun, H.kmem.alloc hdisj⟩
  | allocFail _ hpos hn hrun ih =>
    obtain ⟨A, H⟩ := ih
    exact ⟨A, H.buddy.allocFail hpos hn hrun, H.kmem⟩
  | free _ hok hrun ih =>
    obtain ⟨A, H⟩ := ih
    have hsub := fun q hq => (H.kmem.mem_iff q).2 (.inl (hok.2.2.1 hq))
    exact ⟨_, H.buddy.free ⟨hok.1, hok.2.1, hsub, hok.2.2.2⟩ hrun, H.kmem.free hok.2.2.1⟩
  | own _ hp hown ih =>
    obtain ⟨A, H⟩ := ih
    exact ⟨A, H.buddy.own ((H.kmem.mem_iff _).2 hp) hown, H.kmem⟩

end Memory

theorem Safe.of_on {p : Pages} (h : Safe L sz (s.on p)) : Safe L sz s :=
  ⟨h.live, h.object, h.bufctl, h.inuse, h.full, h.notfull, h.listed, h.page⟩

/-- Without objects there are no slabs. -/
theorem HoldsOn.not_slabPage {m : Memory} (h : HoldsOn F ∅ sz m.kmem A) (q : ℕ) :
    ¬ m.SlabPage q := by
  obtain ⟨O, hO⟩ := h
  rintro ⟨c, a, S, hat, -⟩
  exact hO.not_has c a hat.1

/-- **The memory of the kernel is safe.**  In every state of every run, whatever others do with the
pages they have, no call stops.  An object that `kmalloc` returns was not in use, and the objects in
use overlap with nothing; no page of others is in a slab; the free pages of the buddy allocator are
the pages of the zones that neither others nor slabs have, and once all objects have been freed
those that others do not have. -/
theorem memory_safe {npage : ℕ} {zs : List Zone} {m : Memory} (hsep : Separated zs)
    (h : m.Reach npage zs F L sz) :
    (∀ size, 1 ≤ size → size ≤ 2 ^ maxSizeOrder → ∃ r m', m.kmalloc npage size = .ok (r, m') ∧
      ∀ o ∈ r, ¬ Live L m.kmem o) ∧
    (∀ o ∈ L, ∃ m', m.kfree npage o = .ok m') ∧
    (∀ n, 0 < n → n ≤ 2 ^ maxOrder → ∃ r, buddyAllocPages npage m.buddy n = .ok r) ∧
    (∀ p n, Buddy.FreeOk zs F p n → ∃ buddy, buddyFreePages npage m.buddy p n = .ok buddy) ∧
    Safe L sz m.kmem ∧
    (∀ q ∈ F, ¬ m.SlabPage q) ∧
    (∀ q, q ∈ m.buddy.freePages ↔ q ∈ zonePages zs ∧ q ∉ F ∧ ¬ m.SlabPage q) ∧
    (L = ∅ → buddyNrFreePages m.buddy = ((zonePages zs \ F).card : ℤ)) := by
  obtain ⟨A, H⟩ := h.inv hsep
  have hmem := H.kmem.mem_iff
  refine ⟨fun size hpos hle => ?_, fun o ho => ?_, fun n hpos hn => ?_, fun p n hok => ?_, ?_, ?_,
    fun q => ?_, ?_⟩
  · obtain ⟨r, m', A', hrun, -, hQ⟩ := H.kmalloc hsep hpos hle
    refine ⟨r, m', hrun, fun o ho => ?_⟩
    rw [Option.mem_def] at ho
    subst ho
    exact hQ.1
  · obtain ⟨m', A', hrun, -⟩ := H.kfree hsep ho
    exact ⟨m', hrun⟩
  · rcases H.buddy.inv.buddyAllocPages_spec hpos hn with hnone | ⟨p, s', hsome, -⟩
    · exact ⟨_, hnone⟩
    · exact ⟨_, hsome⟩
  · have hsub := fun q hq => (hmem q).2 (.inl (hok.2.2.1 hq))
    have hok' : Buddy.FreeOk zs A p n := ⟨hok.1, hok.2.1, hsub, hok.2.2.2⟩
    obtain ⟨z, hargs⟩ := hok'.args
    obtain ⟨s', hfree, -⟩ := H.buddy.inv.buddyFreePages_spec hargs hok.1
    exact ⟨s', hfree⟩
  · obtain ⟨O, hO⟩ := H.kmem
    exact hO.safe.of_on
  · rintro q hq ⟨c, a, S, hat, hS⟩
    exact H.kmem.foreign q hq c a S hat hS
  · rw [H.buddy.inv.freePages_eq, Finset.mem_sdiff, hmem q, not_or]
    exact Iff.rfl
  · rintro rfl
    have hA : A = F := by
      ext q
      rw [hmem q]
      exact or_iff_left (H.kmem.not_slabPage q)
    rw [H.buddy.inv.buddyNrFreePages_eq, hA]

/-- Eight pages are free, and `kmalloc(1000)` returns an object. -/
theorem kmalloc_eightPages : ∃ buddy, buddyInitMemmap (buddyInit eightPages) 0 8 = .ok buddy ∧
    ∃ o m', Memory.kmalloc 8 1000 ⟨twoPages, buddy⟩ = .ok (some o, m') :=
  ⟨_, rfl, _, _, rfl⟩

/-- Once it has been freed, all of them are free again. -/
theorem memory_safe_eightPages : ∃ o m m', Memory.kfree 8 o m = .ok m' ∧
    m'.Reach 8 [⟨0, 8⟩] ∅ ∅ (Function.update (fun _ => 0) o 1000) ∧
    buddyNrFreePages m'.buddy = 8 := by
  obtain ⟨buddy, hmemmap, o, m, hrun⟩ := kmalloc_eightPages
  have hok : Buddy.MemmapOk (buddyInit eightPages) [] 0 8 :=
    ⟨by decide, by decide, by decide, fun _ _ => rfl⟩
  have hbuddy : buddy.Reach 8 [⟨0, 8⟩] ∅ := (Buddy.Reach.init rfl fun _ _ => rfl).memmap hok hmemmap
  have hsep : Separated [⟨0, 8⟩] := by
    intro z hz z' hz'
    rw [List.mem_singleton] at hz hz'
    subst hz hz'
    decide
  have hreach := (Memory.Reach.start start_twoPages hbuddy).kmalloc (by decide) (by decide) hrun
  have hmem : o ∈ insert o (∅ : Finset ℕ) := Finset.mem_insert_self o ∅
  obtain ⟨m', hfree⟩ := (memory_safe hsep hreach).2.1 o hmem
  have hreach' := hreach.kfree hmem hfree
  rw [Finset.erase_insert (Finset.notMem_empty o)] at hreach'
  refine ⟨o, m, m', hfree, hreach', ?_⟩
  exact ((memory_safe hsep hreach').2.2.2.2.2.2.2 rfl).trans (by decide)

end Slab

end Ucore
