import Ucore.Vmm.Defs
import Ucore.RbTree.Search
import Ucore.RbTree.Delete
import Mathlib.Data.List.TakeWhile

/-!
# The three indexes of an address space

`Mm.Inv` says that the list of the areas is sorted and consists of disjoint aligned ranges of user
addresses, and that the tree, if there is one, and the cache show the same areas.  An area that is
in memory but not on the list, because it has just been created or taken off the list, is `Loose`.

One lemma for each of the functions that search and change the indexes:

* `Inv.findVma_spec` — `find_vma` is a search through the list, whichever index it uses;
* `Inv.insertVmaStruct_spec` — a loose area that overlaps no other goes to its place in the order;
* `Inv.removeVmaStruct_spec` — an area leaves the indexes and is loose.

The tree is that of `Ucore.RbTree`, with the areas compared by their starts.  As the areas do not
overlap this order is also the one of their ends, and so the descent of `find_vma_rb`, which tests
`addr < vm_end`, finds the first area of the list that passes the test (`findVmaRb_spec`).  The
cache may be any area of the list (`setCache`), because `find_vma` checks that it covers the
address.

An insertion goes to the list and to the tree separately.  The tree finds its place by the
comparison, and the list by a walk or from the predecessor in the tree (`findPrev_spec`); that it is
the same place in both is `insertTree_spec`.  When the number of the areas has reached its limit,
the tree is built from the list (`buildTree_spec`).
-/

set_option autoImplicit false

namespace Ucore

/-- A page-aligned, non-empty range of user addresses. -/
structure Vma.Valid (a : Vma) : Prop where
  base_le : userBase ≤ a.vmStart
  lt : a.vmStart < a.vmEnd
  le_top : a.vmEnd ≤ userTop
  start_aligned : a.vmStart % pgSize = 0
  end_aligned : a.vmEnd % pgSize = 0

/-- The tree shows the areas of the list, in the same order. -/
structure Mm.TreeOk (mm : Mm) (tree : RbTree ℕ) : Prop where
  shape : ∃ t, tree.WF (vmaCompare mm.vma) mm.rbLink t ∧ t.inorder = mm.mmapList
  live : ∀ q ∈ [tree.addr, tree.nil, tree.root], q ∈ mm.kmem.live ∧ q ∉ mm.mmapList

/-- **The invariant of an address space.** -/
structure Mm.Inv (mm : Mm) : Prop where
  valid : ∀ v ∈ mm.mmapList, (mm.vma v).Valid
  sorted : mm.mmapList.Pairwise fun v w => (mm.vma v).vmEnd ≤ (mm.vma w).vmStart
  count : mm.mapCount = mm.mmapList.length
  cache : ∀ v, mm.mmapCache = some v → v ∈ mm.mmapList
  live : ∀ v ∈ mm.mmapList, v ∈ mm.kmem.live
  tree : ∀ tree, mm.mmapTree = some tree → mm.TreeOk tree

/-- The area `v` is in memory and on none of the indexes. -/
structure Mm.Loose (mm : Mm) (v : ℕ) : Prop where
  live : v ∈ mm.kmem.live
  not_mem : v ∉ mm.mmapList
  not_tree : ∀ tree, mm.mmapTree = some tree → v ∉ [tree.addr, tree.nil, tree.root]

/-! ## The order of the areas -/

theorem vmaCompare_nonpos {vma : ℕ → Vma} {v w : ℕ} :
    vmaCompare vma v w ≤ 0 ↔ (vma v).vmStart ≤ (vma w).vmStart := by
  rw [vmaCompare]
  split
  · constructor <;> intro <;> omega
  · split
    · constructor <;> intro <;> omega
    · constructor <;> intro <;> omega

theorem vmaCompare_totalPreorder (vma : ℕ → Vma) : TotalPreorder (vmaCompare vma) := by
  refine ⟨fun a b => ?_, fun a b c hab hbc => ?_⟩
  · rw [vmaCompare_nonpos, vmaCompare_nonpos]
    exact le_total _ _
  · rw [vmaCompare_nonpos] at hab hbc ⊢
    exact hab.trans hbc

/-- The order is all that a tree knows of the areas. -/
theorem RbTree.WF.recompare {compare compare' : ℕ → ℕ → ℤ} {tree : RbTree ℕ} {h : RbHeap ℕ}
    {t : Tree ℕ} (H : tree.WF compare h t)
    (hs : t.inorder.Pairwise fun a b => compare' a b ≤ 0) : tree.WF compare' h t :=
  ⟨H.shape, H.black, H.balanced, hs⟩

namespace Mm.Inv

variable {mm : Mm}

theorem nodup (H : mm.Inv) : mm.mmapList.Nodup := by
  refine H.sorted.imp_of_mem fun {v w} hv _ hvw heq => ?_
  subst heq
  exact absurd (H.valid v hv).lt (not_lt.2 hvw)

/-- The areas are sorted by their starts. -/
theorem starts (H : mm.Inv) :
    mm.mmapList.Pairwise fun v w => (mm.vma v).vmStart < (mm.vma w).vmStart :=
  H.sorted.imp_of_mem fun {v _} hv _ hvw => (H.valid v hv).lt.trans_le hvw

/-- Of two areas, one ends before the other starts. -/
theorem apart (H : mm.Inv) {v w : ℕ} (hv : v ∈ mm.mmapList) (hw : w ∈ mm.mmapList) (hne : v ≠ w) :
    (mm.vma v).vmEnd ≤ (mm.vma w).vmStart ∨ (mm.vma w).vmEnd ≤ (mm.vma v).vmStart := by
  obtain ⟨l, r, hlr⟩ := List.append_of_mem hv
  have hs := H.sorted
  rw [hlr, List.pairwise_append, List.pairwise_cons] at hs
  rw [hlr, List.mem_append, List.mem_cons] at hw
  rcases hw with hw | hw | hw
  · exact .inr (hs.2.2 w hw v (by simp))
  · exact absurd hw.symm hne
  · exact .inl (hs.2.1.1 w hw)

/-- Changing the record of one area, or of none, keeps the invariant as long as the order of the
list does not suffer. -/
theorem setVma (H : mm.Inv) {v : ℕ} {a : Vma}
    (hv : v ∈ mm.mmapList → a.Valid ∧ (mm.vma v).vmStart ≤ a.vmStart ∧ a.vmEnd ≤ (mm.vma v).vmEnd) :
    (mm.setVma v a).Inv := by
  have hother : ∀ w, w ≠ v → (mm.setVma v a).vma w = mm.vma w := fun w hw =>
    Function.update_of_ne hw ..
  have hself : (mm.setVma v a).vma v = a := Function.update_self ..
  have hin : ∀ w ∈ mm.mmapList, ((mm.setVma v a).vma w).Valid ∧
      (mm.vma w).vmStart ≤ ((mm.setVma v a).vma w).vmStart ∧
      ((mm.setVma v a).vma w).vmEnd ≤ (mm.vma w).vmEnd := by
    intro w hw
    by_cases heq : w = v
    · subst heq
      rw [hself]
      exact hv hw
    · rw [hother w heq]
      exact ⟨H.valid w hw, le_rfl, le_rfl⟩
  have hsorted : mm.mmapList.Pairwise fun u w =>
      ((mm.setVma v a).vma u).vmEnd ≤ ((mm.setVma v a).vma w).vmStart :=
    H.sorted.imp_of_mem fun {u w} hu hw huw =>
      ((hin u hu).2.2.trans huw).trans (hin w hw).2.1
  refine ⟨fun w hw => (hin w hw).1, hsorted, H.count, H.cache, H.live, fun tree htree => ?_⟩
  obtain ⟨⟨t, hWF, hord⟩, hlive⟩ := H.tree tree htree
  refine ⟨⟨t, hWF.recompare ?_, hord⟩, hlive⟩
  rw [hord]
  exact hsorted.imp_of_mem fun {u w} hu _ huw =>
    vmaCompare_nonpos.2 ((hin u hu).1.lt.le.trans huw)

/-! ## Searching -/

/-- `addr < vma->vm_end`, the test of both searches. -/
def Below (vma : ℕ → Vma) (addr v : ℕ) : Bool := decide (addr < (vma v).vmEnd)

/-- In a sorted list the areas that end below an address come first. -/
theorem find?_split {vma : ℕ → Vma} {addr x : ℕ} {l r : List ℕ}
    (hl : ∀ w ∈ l, (vma w).vmEnd ≤ addr) (hx : addr < (vma x).vmEnd) :
    (l ++ x :: r).find? (Below vma addr) = some x := by
  have hnone : l.find? (Below vma addr) = none := by
    rw [List.find?_eq_none]
    intro w hw
    rw [Below, decide_eq_true_eq]
    exact not_lt.2 (hl w hw)
  rw [List.find?_append, hnone, Option.none_or, List.find?_cons_of_pos]
  rw [Below, decide_eq_true_eq]
  exact hx

/-- A pointer to a subtree, as `rb_node_root`, `rb_node_left` and `rb_node_right` return it. -/
theorem child_eq {t : Tree ℕ} {nil : ℕ} (ht : nil ∉ t.inorder) :
    (if t.top nil ≠ nil then some (t.top nil) else none) =
      if t = .nil then none else some (t.top nil) := by
  by_cases h : t = .nil
  · rw [if_pos h, if_neg]
    rw [h, Tree.top_nil]
    exact not_not.2 rfl
  · rw [if_neg h, if_pos]
    intro heq
    exact ht (heq ▸ Tree.top_mem_inorder h)

/-- **`find_vma_rb` finds what a search through the list finds.** -/
theorem findVmaRb_spec {vma : ℕ → Vma} {tree : RbTree ℕ} {h : RbHeap ℕ} {t : Tree ℕ} (addr : ℕ)
    (H : At h tree [] t) (hvalid : ∀ v ∈ t.inorder, (vma v).vmStart < (vma v).vmEnd)
    (hs : t.inorder.Pairwise fun v w => (vma v).vmEnd ≤ (vma w).vmStart) {fuel : ℕ}
    (hfuel : t.inorder.length ≤ fuel) :
    ∃ s, findVmaRb fuel tree vma h addr = .ok s ∧ s.2 = t.inorder.find? (Below vma addr) := by
  have hroot : rbNodeRoot tree h = if t = .nil then none else some (t.top tree.nil) := by
    rw [rbNodeRoot, H.ctx.1]
    exact child_eq fun hmem => H.ne_nil hmem rfl
  rw [findVmaRb, hroot]
  -- the answer is in the subtree we stand at, or else it is the last area kept
  refine whileLoop_spec (fun m s => ∃ u p, Linked h tree.nil u p ∧ u.inorder.Sublist t.inorder ∧
    s.1 = (if u = .nil then none else some (u.top tree.nil)) ∧ m = u.inorder.length ∧
    t.inorder.find? (Below vma addr) = (u.inorder.find? (Below vma addr)).or s.2)
    ⟨t, _, H.sub, List.Sublist.refl _, rfl, rfl, by rw [Option.or_none]⟩ hfuel ?_ ?_
  · rintro m ⟨node, best⟩ ⟨u, p, hu, hsub, hnode, rfl, hfind⟩ hc
    simp only at hnode hfind
    cases u with
    | nil =>
      rw [if_pos rfl] at hnode
      rw [hnode] at hc
      exact absurd hc (by simp)
    | node c l x r =>
      rw [if_neg (by simp), Tree.top_node] at hnode
      obtain ⟨hx, hl, hr⟩ := hu
      have hsl : l.inorder.Sublist t.inorder := (List.sublist_append_left _ _).trans hsub
      have hsr : r.inorder.Sublist t.inorder :=
        ((List.sublist_cons_self _ _).trans (List.sublist_append_right _ _)).trans hsub
      have hxmem : x ∈ t.inorder := hsub.mem (by simp)
      have hsu := hs.sublist hsub
      rw [Tree.inorder_node, List.pairwise_append] at hsu
      have hleft : rbNodeChild tree .left h x =
          if l = .nil then none else some (l.top tree.nil) := by
        rw [rbNodeChild, hx]
        exact child_eq fun hmem => H.ne_nil (hsl.mem hmem) rfl
      have hright : rbNodeChild tree .right h x =
          if r = .nil then none else some (r.top tree.nil) := by
        rw [rbNodeChild, hx]
        exact child_eq fun hmem => H.ne_nil (hsr.mem hmem) rfl
      rw [Tree.inorder_node] at hfind
      have hlx : ∀ w ∈ l.inorder, (vma w).vmEnd ≤ (vma x).vmStart :=
        fun w hw => hsu.2.2 w hw x (by simp)
      subst hnode
      by_cases hend : (vma x).vmEnd > addr
      · by_cases hstart : (vma x).vmStart ≤ addr
        · refine ⟨(none, some x), 0, ?_, ⟨.nil, p, trivial, List.nil_sublist _, rfl, rfl, ?_⟩, ?_⟩
          · simp only [if_pos hend, if_pos hstart]
          · rw [hfind, find?_split (fun w hw => (hlx w hw).trans hstart) hend]
            rfl
          · simp
        · refine ⟨(rbNodeChild tree .left h x, some x), _, ?_,
            ⟨l, x, hl, hsl, hleft, rfl, ?_⟩, ?_⟩
          · simp only [if_pos hend, if_neg hstart]
          · rw [hfind, List.find?_append, List.find?_cons_of_pos (by simpa [Below] using hend),
              Option.or_assoc]
            rfl
          · rw [Tree.inorder_node, List.length_append, List.length_cons]
            omega
      · refine ⟨(rbNodeChild tree .right h x, best), _, ?_,
          ⟨r, x, hr, hsr, hright, rfl, ?_⟩, ?_⟩
        · simp only [if_neg hend]
        · have hnone : l.inorder.find? (Below vma addr) = none := by
            rw [List.find?_eq_none]
            intro w hw
            have h1 := hlx w hw
            have h2 := hvalid x hxmem
            rw [Below, decide_eq_true_eq]
            omega
          rw [hfind, List.find?_append, hnone, Option.none_or,
            List.find?_cons_of_neg (by simpa [Below] using hend)]
        · rw [Tree.inorder_node, List.length_append, List.length_cons]
          omega
  · rintro m ⟨node, best⟩ ⟨u, p, -, -, hnode, -, hfind⟩ hc
    simp only at hnode hfind
    by_cases hu : u = .nil
    · rw [hu, Tree.inorder_nil, List.find?_nil, Option.none_or] at hfind
      exact hfind.symm
    · rw [if_neg hu] at hnode
      rw [hnode] at hc
      exact absurd hc (by simp)

/-- The search behind `find_vma` is a search through the list, whichever index it uses. -/
theorem lookupVma_spec (H : mm.Inv) (addr : ℕ) :
    lookupVma mm addr = .ok (mm.mmapList.find? (Below mm.vma addr)) := by
  rw [lookupVma]
  cases hhit : mm.mmapCache.filter
      fun v => decide ((mm.vma v).vmStart ≤ addr) && decide ((mm.vma v).vmEnd > addr) with
  | some v =>
    rw [Option.filter_eq_some_iff, Bool.and_eq_true, decide_eq_true_eq, decide_eq_true_eq] at hhit
    obtain ⟨hcache, hstart, hend⟩ := hhit
    obtain ⟨l, r, hlr⟩ := List.append_of_mem (H.cache v hcache)
    have hs := H.sorted
    rw [hlr, List.pairwise_append] at hs
    have hfind : mm.mmapList.find? (Below mm.vma addr) = some v := by
      rw [hlr]
      exact find?_split (fun w hw => (hs.2.2 w hw v (by simp)).trans hstart) hend
    rw [hfind]
  | none =>
    cases htree : mm.mmapTree with
    | none => rfl
    | some tree =>
      obtain ⟨t, hWF, hord⟩ := (H.tree tree htree).shape
      obtain ⟨s, hrun, hs⟩ := findVmaRb_spec addr hWF.shape
        (fun v hv => (H.valid v (hord ▸ hv)).lt) (hord ▸ H.sorted)
        (show t.inorder.length ≤ mm.fuel by rw [hord]; exact Nat.le_succ _)
      rw [hord] at hs
      simp only [hrun, Res.ok_bind, Res.pure_eq, hs]

/-- The cache may hold any area of the list. -/
theorem setCache (H : mm.Inv) {c : Option ℕ} (hc : ∀ v, c = some v → v ∈ mm.mmapList) :
    (mm.setCache c).Inv :=
  ⟨H.valid, H.sorted, H.count, hc, H.live,
    fun tree htree => ⟨(H.tree tree htree).shape, (H.tree tree htree).live⟩⟩

/-- **`find_vma` is a linear search**, whatever the cache holds and whether or not there is a tree.
It changes nothing but the cache. -/
theorem findVma_spec (H : mm.Inv) (addr : ℕ) :
    ∃ c, findVma mm addr = .ok (mm.mmapList.find? (Below mm.vma addr), mm.setCache c) ∧
      (mm.setCache c).Inv := by
  rw [findVma, H.lookupVma_spec addr, Res.ok_bind]
  cases hfind : mm.mmapList.find? (Below mm.vma addr) with
  | none => exact ⟨mm.mmapCache, rfl, H⟩
  | some v =>
    refine ⟨some v, rfl, H.setCache fun w hw => ?_⟩
    rw [← Option.some_inj.1 hw]
    exact List.mem_of_find?_eq_some hfind

/-! ## Insertion -/

/-- The tree part of an insertion: the new area goes between the areas that start below it and
those that start above, and the last one below it is what `rb_node_prev` finds. -/
theorem insertTree_spec {tree : RbTree ℕ} (htree : mm.TreeOk tree) {v : ℕ}
    (hv : v ∉ mm.mmapList) (hvt : v ∉ [tree.addr, tree.nil, tree.root]) :
    ∃ (h' : RbHeap ℕ) (t' : Tree ℕ) (l r : List ℕ),
      rbInsert mm.fuel tree (vmaCompare mm.vma) mm.rbLink v = .ok h' ∧
      rbNodePrev mm.fuel tree h' v = .ok l.getLast? ∧
      tree.WF (vmaCompare mm.vma) h' t' ∧ t'.inorder = l ++ v :: r ∧ mm.mmapList = l ++ r ∧
      (∀ w ∈ l, (mm.vma w).vmStart ≤ (mm.vma v).vmStart) ∧
      ∀ w ∈ r, (mm.vma v).vmStart < (mm.vma w).vmStart := by
  obtain ⟨t, hWF, hord⟩ := htree.shape
  have hnode : v ∉ tree.nil :: tree.root :: t.inorder := by
    rw [hord]
    simp only [List.mem_cons, List.not_mem_nil, or_false, not_or] at hvt ⊢
    exact ⟨hvt.2.1, hvt.2.2, hv⟩
  obtain ⟨h', t', l, r, hrun, hWF', hlr, hord', hle, hgt⟩ :=
    rbInsert_spec (vmaCompare_totalPreorder mm.vma) hWF hnode
      (show t.inorder.length ≤ mm.fuel by rw [hord]; exact Nat.le_succ _)
  refine ⟨h', t', l, r, hrun, ?_, hWF', hord', hord ▸ hlr, ?_, ?_⟩
  · refine hWF'.shape.rbNodePrev_eq hord' ?_
    rw [hord', Mm.fuel, ← hord, hlr, List.length_append, List.length_append, List.length_cons]
    omega
  · exact fun w hw => vmaCompare_nonpos.1 (hle w hw)
  · intro w hw
    have h1 := hgt w hw
    by_contra hcon
    exact absurd (vmaCompare_nonpos.2 (not_lt.1 hcon)) (not_le.2 h1)

/-- The place of a new area. -/
theorem findPrev_spec (H : mm.Inv) {v : ℕ} (hv : mm.Loose v) :
    ∃ (h' : RbHeap ℕ) (l r : List ℕ), findPrev mm v = .ok (h', l.getLast?) ∧
      mm.mmapList = l ++ r ∧ (∀ w ∈ l, (mm.vma w).vmStart ≤ (mm.vma v).vmStart) ∧
      (∀ w ∈ r, (mm.vma v).vmStart < (mm.vma w).vmStart) ∧
      (∀ tree, mm.mmapTree = some tree →
        ∃ t', tree.WF (vmaCompare mm.vma) h' t' ∧ t'.inorder = l ++ v :: r) := by
  rw [findPrev]
  cases htree : mm.mmapTree with
  | none =>
    refine ⟨mm.rbLink, _, mm.mmapList.dropWhile fun p =>
      decide ((mm.vma p).vmStart ≤ (mm.vma v).vmStart), rfl,
      List.takeWhile_append_dropWhile.symm, ?_, ?_, by simp⟩
    · intro w hw
      simpa using List.mem_takeWhile_imp hw
    · -- the list is sorted, so that all areas behind the first larger one are larger
      intro w hw
      have hs := H.starts.sublist (List.dropWhile_sublist fun p =>
        decide ((mm.vma p).vmStart ≤ (mm.vma v).vmStart))
      cases hd : mm.mmapList.dropWhile fun p =>
          decide ((mm.vma p).vmStart ≤ (mm.vma v).vmStart) with
      | nil => simp [hd] at hw
      | cons x xs =>
        have hx : ¬ (mm.vma x).vmStart ≤ (mm.vma v).vmStart := by
          have := List.head?_dropWhile_not
            (fun p => decide ((mm.vma p).vmStart ≤ (mm.vma v).vmStart)) mm.mmapList
          rw [hd] at this
          simpa using this
        rw [hd] at hw hs
        rcases List.mem_cons.1 hw with rfl | hw
        · exact not_le.1 hx
        · exact (not_le.1 hx).trans ((List.pairwise_cons.1 hs).1 w hw)
  | some tree =>
    obtain ⟨h', t', l, r, hrun, hprev, hWF, hord, hlr, hle, hgt⟩ :=
      insertTree_spec (H.tree tree htree) hv.not_mem (hv.not_tree tree htree)
    refine ⟨h', l, r, ?_, hlr, hle, hgt, ?_⟩
    · simp only [hrun, hprev, Res.ok_bind, Res.pure_eq]
    · rintro _ ⟨⟩
      exact ⟨t', hWF, hord⟩

/-- What `insert_vma_struct` and `rb_tree_create` leave alone. -/
structure Keeps (mm mm' : Mm) : Prop where
  vma : mm'.vma = mm.vma
  cache : mm'.mmapCache = mm.mmapCache
  pgdir : mm'.pgdir = mm.pgdir
  live : mm.kmem.live ⊆ mm'.kmem.live
  newTree : ∀ tree, mm'.mmapTree = some tree → mm.mmapTree = some tree ∨
    ∀ q ∈ [tree.addr, tree.nil, tree.root], q ∉ mm.kmem.live

theorem Keeps.loose {mm' : Mm} (K : Keeps mm mm') {u : ℕ} (hu : mm.Loose u)
    (hmem : u ∉ mm'.mmapList) : mm'.Loose u := by
  refine ⟨K.live hu.live, hmem, fun tree htree => ?_⟩
  rcases K.newTree tree htree with h | h
  · exact hu.not_tree tree h
  · exact fun hq => h u hq hu.live

/-- Building the tree from the list. -/
theorem buildTree_spec (H : mm.Inv) (hnone : mm.mmapTree = none) :
    ∃ mm', buildTree mm = .ok mm' ∧ mm'.Inv ∧ mm'.mmapList = mm.mmapList ∧ Keeps mm mm' := by
  rw [buildTree]
  rcases rbTreeCreate_spec mm.kmem mm.rbLink (vmaCompare mm.vma) with
    ⟨k, h, hcreate, hlive, -⟩ | ⟨tree, k, h, hcreate, hnd, hfresh, hlive, -, hWF⟩
  · refine ⟨{ mm with kmem := k, rbLink := h }, by rw [hcreate], ?_, rfl, ?_⟩
    · exact ⟨H.valid, H.sorted, H.count, H.cache, by simpa [hlive] using H.live,
        fun tree htree => absurd (hnone.symm.trans htree) (by simp)⟩
    · exact ⟨rfl, rfl, rfl, hlive.ge, fun tree htree => .inl htree⟩
  · -- the areas come in order, so that each one is inserted at the end
    have hfold : ∀ (m : List ℕ) (p : List ℕ) (h : RbHeap ℕ) (t : Tree ℕ), mm.mmapList = p ++ m →
        tree.WF (vmaCompare mm.vma) h t → t.inorder = p →
        ∃ h' t', m.foldlM (fun h v => rbInsert mm.fuel tree (vmaCompare mm.vma) h v) h = .ok h' ∧
          tree.WF (vmaCompare mm.vma) h' t' ∧ t'.inorder = mm.mmapList := by
      intro m
      induction m with
      | nil =>
        intro p h t hp hWF hord
        exact ⟨h, t, rfl, hWF, by rw [hord, hp, List.append_nil]⟩
      | cons v m ih =>
        intro p h t hp hWF hord
        have hv : v ∈ mm.mmapList := by rw [hp]; simp
        have hs := H.starts
        rw [hp, List.pairwise_append] at hs
        have hnode : v ∉ tree.nil :: tree.root :: t.inorder := by
          have h1 := H.live v hv
          have h2 := H.nodup
          rw [hp, List.nodup_append] at h2
          simp only [List.mem_cons, List.not_mem_nil, or_false, forall_eq_or_imp, forall_eq]
            at hfresh
          simp only [List.mem_cons, not_or, hord]
          exact ⟨fun h => hfresh.2.1 (h ▸ h1), fun h => hfresh.2.2 (h ▸ h1),
            fun h => h2.2.2 v h v (by simp) rfl⟩
        have hlen : t.inorder.length ≤ mm.fuel := by
          rw [hord, Mm.fuel, hp, List.length_append]
          omega
        obtain ⟨h', t', l, r, hrun, hWF', hlr, hord', -, hgt⟩ :=
          rbInsert_spec (vmaCompare_totalPreorder mm.vma) hWF hnode hlen
        have hr : r = [] := by
          refine List.eq_nil_iff_forall_not_mem.2 fun w hw => ?_
          have h1 : w ∈ p := by rw [← hord, hlr]; simp [hw]
          have h2 := hs.2.2 w h1 v (by simp)
          exact absurd (vmaCompare_nonpos.2 h2.le) (not_le.2 (hgt w hw))
        subst hr
        obtain ⟨h'', t'', hrun', hWF'', hord''⟩ := ih (p ++ [v]) h' t' (by rw [hp]; simp) hWF'
          (by rw [hord', ← hord, hlr]; simp)
        refine ⟨h'', t'', ?_, hWF'', hord''⟩
        rw [List.foldlM_cons, hrun, Res.ok_bind, hrun']
    obtain ⟨h', t', hrun, hWF', hord⟩ := hfold mm.mmapList [] h .nil rfl hWF rfl
    refine ⟨{ mm with mmapTree := some tree, kmem := k, rbLink := h' }, ?_, ?_, rfl, ?_⟩
    · rw [hcreate]
      simp only [hrun, Res.ok_bind, Res.pure_eq]
    · refine ⟨H.valid, H.sorted, H.count, H.cache, fun v hv => ?_, ?_⟩
      · show v ∈ k.live
        rw [hlive]
        simp [H.live v hv]
      · rintro _ ⟨⟩
        refine ⟨⟨t', hWF', hord⟩, fun q hq => ⟨?_, fun hmem => hfresh q hq (H.live q hmem)⟩⟩
        show q ∈ k.live
        rw [hlive]
        simp only [List.mem_cons, List.not_mem_nil, or_false] at hq
        rcases hq with rfl | rfl | rfl <;> simp
    · refine ⟨rfl, rfl, rfl, ?_, ?_⟩
      · show mm.kmem.live ⊆ k.live
        rw [hlive]
        intro q hq
        simp [hq]
      · rintro _ ⟨⟩
        exact .inr hfresh

/-- The new area overlaps none of the list. -/
theorem insert_sorted (H : mm.Inv) {v : ℕ} {l r : List ℕ} (hval : (mm.vma v).Valid)
    (hlr : mm.mmapList = l ++ r) (hle : ∀ w ∈ l, (mm.vma w).vmStart ≤ (mm.vma v).vmStart)
    (hgt : ∀ w ∈ r, (mm.vma v).vmStart < (mm.vma w).vmStart)
    (happart : ∀ w ∈ mm.mmapList, (mm.vma w).vmEnd ≤ (mm.vma v).vmStart ∨
      (mm.vma v).vmEnd ≤ (mm.vma w).vmStart) :
    (∀ w ∈ l, (mm.vma w).vmEnd ≤ (mm.vma v).vmStart) ∧
      (∀ w ∈ r, (mm.vma v).vmEnd ≤ (mm.vma w).vmStart) := by
  refine ⟨fun w hw => ?_, fun w hw => ?_⟩
  · have h1 := hle w hw
    have h2 := hval.lt
    rcases happart w (by rw [hlr]; simp [hw]) with h | h <;> omega
  · have hwm : w ∈ mm.mmapList := by rw [hlr]; simp [hw]
    have h1 := hgt w hw
    have h2 := (H.valid w hwm).lt
    rcases happart w hwm with h | h <;> omega

/-- **`insert_vma_struct` puts a loose area that overlaps no other to its place in the order**, and
its assertions hold. -/
theorem insertVmaStruct_spec (H : mm.Inv) {v : ℕ} (hv : mm.Loose v) (hval : (mm.vma v).Valid)
    (happart : ∀ w ∈ mm.mmapList, (mm.vma w).vmEnd ≤ (mm.vma v).vmStart ∨
      (mm.vma v).vmEnd ≤ (mm.vma w).vmStart) :
    ∃ mm' l r, insertVmaStruct mm v = .ok mm' ∧ mm'.Inv ∧ mm.mmapList = l ++ r ∧
      mm'.mmapList = l ++ v :: r ∧ (∀ w ∈ l, (mm.vma w).vmEnd ≤ (mm.vma v).vmStart) ∧
      (∀ w ∈ r, (mm.vma v).vmEnd ≤ (mm.vma w).vmStart) ∧ Keeps mm mm' := by
  obtain ⟨h', l, r, hprev, hlr, hle, hgt, htree'⟩ := H.findPrev_spec hv
  obtain ⟨hl, hr⟩ := H.insert_sorted hval hlr hle hgt happart
  have hnd := H.nodup
  rw [hlr] at hnd
  have hchk : ∀ p ∈ l.getLast?, checkVmaOverlap (mm.vma p) (mm.vma v) = .ok () := by
    intro p hp
    have hpl : p ∈ l := List.mem_of_getLast? hp
    rw [checkVmaOverlap, assert_pos (H.valid p (by rw [hlr]; simp [hpl])).lt, Res.ok_bind,
      assert_pos (hl p hpl), Res.ok_bind, assert_pos hval.lt]
  have hchk' : ∀ n ∈ r.head?, checkVmaOverlap (mm.vma v) (mm.vma n) = .ok () := by
    intro n hn
    have hnr : n ∈ r := List.mem_of_head? hn
    rw [checkVmaOverlap, assert_pos hval.lt, Res.ok_bind, assert_pos (hr n hnr), Res.ok_bind,
      assert_pos (H.valid n (by rw [hlr]; simp [hnr])).lt]
  -- the address space with the area on the list, before a tree may be built
  obtain ⟨mm₁, hmm₁⟩ : ∃ mm₁ : Mm, mm₁ = { mm with
      rbLink := h'
      mmapList := l ++ v :: r
      mapCount := mm.mapCount + 1 } := ⟨_, rfl⟩
  have hInv : mm₁.Inv := by
    subst hmm₁
    have hs := H.sorted
    rw [hlr, List.pairwise_append] at hs
    have hmem : ∀ w, w ∈ l ++ v :: r → w = v ∨ w ∈ mm.mmapList := fun w hw => by
      rw [hlr]
      simp only [List.mem_append, List.mem_cons] at hw ⊢
      tauto
    have hsorted : (l ++ v :: r).Pairwise fun v w => (mm.vma v).vmEnd ≤ (mm.vma w).vmStart := by
      rw [List.pairwise_append, List.pairwise_cons]
      refine ⟨hs.1, ⟨hr, hs.2.1⟩, fun a ha b hb => ?_⟩
      rcases List.mem_cons.1 hb with rfl | hb
      · exact hl a ha
      · exact hs.2.2 a ha b hb
    refine ⟨?_, hsorted, ?_, ?_, ?_, ?_⟩
    · intro w hw
      rcases hmem w hw with rfl | hw
      · exact hval
      · exact H.valid w hw
    · show mm.mapCount + 1 = ((l ++ v :: r).length : ℤ)
      rw [H.count, hlr, List.length_append, List.length_append, List.length_cons]
      push_cast
      ring
    · intro w hw
      have h1 := H.cache w hw
      rw [hlr] at h1
      show w ∈ l ++ v :: r
      simp only [List.mem_append, List.mem_cons] at h1 ⊢
      tauto
    · intro w hw
      rcases hmem w hw with rfl | hw
      · exact hv.live
      · exact H.live w hw
    · intro tree htree
      obtain ⟨t', hWF, hord⟩ := htree' tree htree
      refine ⟨⟨t', hWF, hord⟩, fun q hq => ⟨((H.tree tree htree).live q hq).1, fun hmemq => ?_⟩⟩
      rcases hmem q hmemq with rfl | hmemq
      · exact hv.not_tree tree htree hq
      · exact ((H.tree tree htree).live q hq).2 hmemq
  have hK : Keeps mm mm₁ := by
    subst hmm₁
    exact ⟨rfl, rfl, rfl, Finset.Subset.refl _, fun tree htree => .inl htree⟩
  have hrun : insertVmaStruct mm v =
      if mm₁.mmapTree = none ∧ rbMinMapCount ≤ mm₁.mapCount then buildTree mm₁ else .ok mm₁ := by
    rw [insertVmaStruct, assert_pos hval.lt, Res.ok_bind, hprev, Res.ok_bind]
    simp only [hlr, listNext_getLast? hnd, listAddAfter_getLast? hnd]
    have h1 : (l.getLast?.elim (.ok ()) fun p => checkVmaOverlap (mm.vma p) (mm.vma v)) =
        .ok () := by
      cases hp : l.getLast? with
      | none => rfl
      | some p => exact hchk p hp
    have h2 : (r.head?.elim (.ok ()) fun n => checkVmaOverlap (mm.vma v) (mm.vma n)) =
        .ok () := by
      cases hn : r.head? with
      | none => rfl
      | some n => exact hchk' n hn
    rw [h1, Res.ok_bind, h2, Res.ok_bind, hmm₁]
    rfl
  have hlist : mm₁.mmapList = l ++ v :: r := by rw [hmm₁]
  rw [hrun]
  by_cases hbuild : mm₁.mmapTree = none ∧ rbMinMapCount ≤ mm₁.mapCount
  · obtain ⟨mm₂, hrun₂, H₂, hlist₂, K₂⟩ := hInv.buildTree_spec hbuild.1
    refine ⟨mm₂, l, r, by rw [if_pos hbuild, hrun₂], H₂, hlr, hlist₂.trans hlist, hl, hr, ?_⟩
    refine ⟨K₂.vma.trans hK.vma, K₂.cache.trans hK.cache, K₂.pgdir.trans hK.pgdir,
      hK.live.trans K₂.live, fun tree htree => ?_⟩
    rcases K₂.newTree tree htree with h | h
    · exact hK.newTree tree h
    · exact .inr fun q hq hlive => h q hq (hK.live hlive)
  · exact ⟨mm₁, l, r, by rw [if_neg hbuild], hInv, hlr, hlist, hl, hr, hK⟩

/-! ## Removal -/

/-- **`remove_vma_struct` takes an area off all indexes.** -/
theorem removeVmaStruct_spec (H : mm.Inv) {v : ℕ} (hv : v ∈ mm.mmapList) :
    ∃ mm', removeVmaStruct mm v = .ok mm' ∧ mm'.Inv ∧ mm'.mmapList = mm.mmapList.erase v ∧
      mm'.vma = mm.vma ∧ mm'.pgdir = mm.pgdir ∧ mm'.kmem = mm.kmem ∧
      mm'.mmapTree = mm.mmapTree ∧ mm'.Loose v := by
  have hdel : ∃ h', (mm.mmapTree.elim (.ok mm.rbLink) fun tree =>
        rbDelete mm.fuel tree mm.rbLink v) = .ok h' ∧
      ∀ tree, mm.mmapTree = some tree → ∃ t', tree.WF (vmaCompare mm.vma) h' t' ∧
        t'.inorder = mm.mmapList.erase v := by
    cases htree : mm.mmapTree with
    | none => exact ⟨mm.rbLink, rfl, by simp⟩
    | some tree =>
      obtain ⟨t, hWF, hord⟩ := (H.tree tree htree).shape
      obtain ⟨h', t', hrun, hWF', hord'⟩ := rbDelete_spec hWF (z := v) (by rw [hord]; exact hv)
        (show t.inorder.length ≤ mm.fuel by rw [hord]; exact Nat.le_succ _)
      refine ⟨h', hrun, ?_⟩
      rintro _ ⟨⟩
      exact ⟨t', hWF', by rw [hord', hord]⟩
  obtain ⟨h', hrun, htree'⟩ := hdel
  have hsub : ∀ w ∈ mm.mmapList.erase v, w ∈ mm.mmapList := fun w hw => List.mem_of_mem_erase hw
  have hnot : v ∉ mm.mmapList.erase v := H.nodup.not_mem_erase
  obtain ⟨mm', hmm'⟩ : ∃ mm' : Mm, mm' = { mm with
      rbLink := h'
      mmapList := mm.mmapList.erase v
      mmapCache := if mm.mmapCache = some v then none else mm.mmapCache
      mapCount := mm.mapCount - 1 } := ⟨_, rfl⟩
  refine ⟨mm', ?_, ?_, by rw [hmm'], by rw [hmm'], by rw [hmm'], by rw [hmm'], by rw [hmm'], ?_⟩
  · rw [removeVmaStruct, hrun, Res.ok_bind, hmm']
    rfl
  · subst hmm'
    refine ⟨fun w hw => H.valid w (hsub w hw), H.sorted.sublist List.erase_sublist, ?_, ?_,
      fun w hw => H.live w (hsub w hw), ?_⟩
    · show mm.mapCount - 1 = ((mm.mmapList.erase v).length : ℤ)
      have hpos := List.length_pos_of_mem hv
      rw [H.count, List.length_erase_of_mem hv]
      omega
    · intro w hw
      simp only at hw ⊢
      split at hw
      case isTrue => exact absurd hw (by simp)
      case isFalse hne =>
        refine (List.mem_erase_of_ne ?_).2 (H.cache w hw)
        rintro rfl
        exact hne hw
    · intro tree htree
      obtain ⟨t', hWF, hord⟩ := htree' tree htree
      exact ⟨⟨t', hWF, hord⟩, fun q hq => ⟨((H.tree tree htree).live q hq).1,
        fun hmem => ((H.tree tree htree).live q hq).2 (hsub q hmem)⟩⟩
  · subst hmm'
    exact ⟨H.live v hv, hnot, fun tree htree hq => ((H.tree tree htree).live v hq).2 hv⟩

end Mm.Inv

end Ucore
