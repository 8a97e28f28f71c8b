import Ucore.Lib.Ring
import Ucore.RbTree.Walk

/-!
# Navigation and search

`rb_node_next` and `rb_node_prev` in terms of the in-order sequence: if it is `l ++ x :: r`, they
take `x` to the first entry of `r` and to the last entry of `l`.  A loop that starts at the leftmost
node and takes `rb_node_next` until it returns `NULL` therefore sees the whole sequence.

`rb_search` goes down the tree by a comparison with a key.  It is the descent `Tree.search` on the
shape of the tree, and finds the highest node that is equal to the key.

* `exists_split` — a place in the sequence is a place in the tree, so that the lemmas of
  `Ucore.RbTree.Walk` apply to it;
* `rbNodeNext_eq`, `rbNodePrev_eq` — the neighbours;
* `rbNodes_eq` — the iteration, by induction on what is still to come;
* `rbSearch_eq` — the search;
* `rbTree_navigates` — all of these for a well-formed tree.
-/

set_option autoImplicit false

namespace Ucore

variable {α : Type} [DecidableEq α]

/-- The node one comes to from the top by going left, if the tree is not empty. -/
def rbLeftmost (fuel : ℕ) (tree : RbTree α) (h : RbHeap α) : Res (Option α) :=
  match rbNodeRoot tree h with
  | none => .ok none
  | some x => do
    let y ← rbExtreme fuel tree .left h x
    return some y

/-- `for (x = first; x != NULL; x = rb_node_next(tree, x))`, with the list of all `x`. -/
def rbNodes (fuel : ℕ) (tree : RbTree α) (h : RbHeap α) (first : Option α) : Res (List α) := do
  let (_, seen) ← whileLoop (fun s => s.1.isSome)
    (fun s =>
      match s.1 with
      | none => .ok s
      | some x => do
        let next ← rbNodeNext fuel tree h x
        return (next, s.2 ++ [x]))
    fuel (first, [])
  return seen

variable {h : RbHeap α} {tree : RbTree α} {c : Ctx α} {t : Tree α} {fuel : ℕ}

namespace At

omit [DecidableEq α] in
/-- A place in the in-order sequence is a place in the tree. -/
theorem exists_split (H : At h tree [] t) {l r : List α} {x : α} (hlr : t.inorder = l ++ x :: r) :
    ∃ (c : Ctx α) (red : Bool) (a b : Tree α), At h tree c (.node red a x b) ∧
      c.plug (.node red a x b) = t ∧ l = c.before ++ a.inorder ∧ r = b.inorder ++ c.after := by
  obtain ⟨c, red, a, b, rfl⟩ := Ctx.exists_plug (x := x) (t := t) (by rw [hlr]; simp)
  have hnd := H.inorder_nodup
  rw [hlr] at hnd
  have hsplit : l = c.before ++ a.inorder ∧ r = b.inorder ++ c.after := by
    refine split_at_unique hnd ?_
    rw [← hlr, Ctx.inorder_plug, Tree.inorder_node]
    simp
  exact ⟨c, red, a, b, At.root_iff.2 H, rfl, hsplit⟩

/-- `rb_node_next` is the next node of the sequence. -/
theorem rbNodeNext_eq (H : At h tree [] t) {l r : List α} {x : α} (hlr : t.inorder = l ++ x :: r)
    (hfuel : t.inorder.length ≤ fuel) : rbNodeNext fuel tree h x = .ok r.head? := by
  obtain ⟨c, red, a, b, hat, rfl, -, hr⟩ := H.exists_split hlr
  rw [rbNodeNext, rbTreeSuccessor_spec hat hfuel, Res.ok_bind, Res.pure_eq, ← hr]
  cases r with
  | nil => simp
  | cons y r =>
    have hy : y ≠ tree.nil := H.ne_nil (by rw [hlr]; simp)
    simp [hy]

/-- `rb_node_prev` is the node before. -/
theorem rbNodePrev_eq (H : At h tree [] t) {l r : List α} {x : α} (hlr : t.inorder = l ++ x :: r)
    (hfuel : t.inorder.length ≤ fuel) : rbNodePrev fuel tree h x = .ok l.getLast? := by
  obtain ⟨c, red, a, b, hat, rfl, hl, -⟩ := H.exists_split hlr
  rw [rbNodePrev, rbTreePredecessor_spec hat hfuel, Res.ok_bind, Res.pure_eq, ← hl]
  rcases List.eq_nil_or_concat l with rfl | ⟨l, p, rfl⟩
  · simp
  · have hp : p ≠ tree.nil := H.ne_nil (by rw [hlr]; simp)
    simp [hp]

theorem rbLeftmost_eq (H : At h tree [] t) (hfuel : t.inorder.length ≤ fuel) :
    rbLeftmost fuel tree h = .ok t.inorder.head? := by
  have hroot : (h tree.root).left = t.top tree.nil := H.ctx.1
  rw [rbLeftmost, rbNodeRoot, hroot]
  by_cases ht : t = .nil
  · subst ht
    simp
  · rw [if_pos (H.ne_nil (Tree.top_mem_inorder ht))]
    obtain ⟨c₂, red, y, s, hrun, rfl, hdir⟩ := rbExtreme_spec .left H ht hfuel
    dsimp only
    rw [hrun, Res.ok_bind, Res.pure_eq, Ctx.inorder_plug, Ctx.before_eq_nil hdir]
    simp [Tree.mk]

/-- **The iteration sees every node**, in order. -/
theorem rbNodes_eq (H : At h tree [] t) (hfuel : t.inorder.length ≤ fuel) :
    rbNodes fuel tree h t.inorder.head? = .ok t.inorder := by
  obtain ⟨s, hrun, hs⟩ := whileLoop_spec
    (c := fun s : Option α × List α => s.1.isSome)
    (f := fun s =>
      match s.1 with
      | none => .ok s
      | some x => do
        let next ← rbNodeNext fuel tree h x
        return (next, s.2 ++ [x]))
    (Q := fun s => s.2 = t.inorder)
    (s := (t.inorder.head?, []))
    -- the nodes seen so far and the ones to come make up the sequence
    (fun n s => ∃ r : List α, s.1 = r.head? ∧ t.inorder = s.2 ++ r ∧ r.length = n)
    ⟨t.inorder, rfl, rfl, rfl⟩ hfuel
    (by
      rintro n ⟨cur, seen⟩ ⟨r, rfl, hlr, rfl⟩ hguard
      cases r with
      | nil => simp at hguard
      | cons x r =>
        dsimp only [List.head?_cons]
        rw [H.rbNodeNext_eq hlr hfuel]
        exact ⟨_, r.length, rfl, ⟨r, rfl, by rw [hlr]; simp, rfl⟩, by simp⟩)
    (by
      rintro n ⟨cur, seen⟩ ⟨r, rfl, hlr, rfl⟩ hguard
      cases r with
      | nil => simpa using hlr.symm
      | cons x r => simp at hguard)
  rw [rbNodes, hrun, Res.ok_bind]
  exact congrArg Except.ok hs

/-- `rb_search` is the descent on the shape. -/
theorem rbSearch_eq {κ : Type} (H : At h tree [] t) (compare : α → κ → ℤ) (key : κ)
    (hfuel : t.inorder.length ≤ fuel) :
    rbSearch fuel tree compare h key = .ok (t.search (compare · key)) := by
  obtain ⟨node, hrun, hnode⟩ := whileLoop_spec
    (c := fun node => decide (node ≠ tree.nil ∧ compare node key ≠ 0))
    (f := fun node => .ok (if compare node key > 0 then (h node).left else (h node).right))
    (Q := fun node => (if node ≠ tree.nil then some node else none) = t.search (compare · key))
    (s := (h tree.root).left)
    (fun n node => ∃ (c : Ctx α) (t' : Tree α), At h tree c t' ∧ node = t'.top tree.nil ∧
      t'.search (compare · key) = t.search (compare · key) ∧ t'.inorder.length = n)
    ⟨[], t, H, H.ctx.1, rfl, rfl⟩ hfuel
    (by
      rintro n node ⟨c, t', H', rfl, hsearch, rfl⟩ hguard
      rw [decide_eq_true_iff] at hguard
      cases t' with
      | nil => exact absurd rfl hguard.1
      | node red a x b =>
        rw [Tree.top_node] at hguard ⊢
        rw [H'.sub.1]
        rw [Tree.search, if_neg hguard.2] at hsearch
        rw [Tree.inorder_node, List.length_append, List.length_cons]
        by_cases hpos : 0 < compare x key
        · rw [if_pos hpos] at hsearch ⊢
          exact ⟨_, _, rfl,
            ⟨⟨.left, red, x, b⟩ :: c, a, At.cons_iff.2 H', rfl, hsearch, rfl⟩, by omega⟩
        · rw [if_neg hpos] at hsearch ⊢
          exact ⟨_, _, rfl,
            ⟨⟨.right, red, x, a⟩ :: c, b, At.cons_iff.2 H', rfl, hsearch, rfl⟩, by omega⟩)
    (by
      rintro n node ⟨c, t', H', rfl, hsearch, rfl⟩ hguard
      rw [← hsearch]
      cases t' with
      | nil => simp [Tree.search]
      | node red a x b =>
        have hx : x ≠ tree.nil := H'.ne_nil (by simp)
        have h0 : compare x key = 0 := by simpa [hx] using hguard
        rw [Tree.top_node, if_pos hx, Tree.search, if_pos h0])
  rw [rbSearch, hrun, Res.ok_bind, Res.pure_eq, hnode]

end At

/-- **Navigation and search.**  In a well-formed tree `rb_node_next` and `rb_node_prev` return the
neighbours in the in-order sequence, so that a walk from the leftmost node visits every node once
and in order.  For a comparison with a key that is monotone with the order of the tree, `rb_search`
returns a highest equal node, and `NULL` only if there is no equal node. -/
theorem rbTree_navigates {compare : α → α → ℤ} (hWF : tree.WF compare h t)
    (hfuel : t.inorder.length ≤ fuel) :
    (∀ l x r, t.inorder = l ++ x :: r →
      rbNodeNext fuel tree h x = .ok r.head? ∧ rbNodePrev fuel tree h x = .ok l.getLast?) ∧
    (rbLeftmost fuel tree h >>= rbNodes fuel tree h) = .ok t.inorder ∧ t.inorder.Nodup ∧
    ∀ (κ : Type) (keyCompare : α → κ → ℤ) (key : κ),
      (∀ a ∈ t.inorder, ∀ b ∈ t.inorder, compare a b ≤ 0 →
        (keyCompare a key).sign ≤ (keyCompare b key).sign) →
      ∃ found, rbSearch fuel tree keyCompare h key = .ok found ∧
        t.Finds (keyCompare · key) found := by
  have H := hWF.shape
  refine ⟨fun l x r hlr => ⟨H.rbNodeNext_eq hlr hfuel, H.rbNodePrev_eq hlr hfuel⟩, ?_,
    H.inorder_nodup, fun κ keyCompare key hmono => ?_⟩
  · rw [H.rbLeftmost_eq hfuel, Res.ok_bind, H.rbNodes_eq hfuel]
  · refine ⟨_, H.rbSearch_eq keyCompare key hfuel, Tree.search_finds ?_ H.inorder_nodup⟩
    exact hWF.sorted.imp_of_mem fun ha hb hab => hmono _ ha _ hb hab

theorem rbTree_navigates_sample :
    rbNodeNext 3 ⟨0, 1, 2⟩ sampleHeap 3 = .ok (some 4) ∧
    rbNodePrev 3 ⟨0, 1, 2⟩ sampleHeap 3 = .ok none ∧
    (rbLeftmost 3 ⟨0, 1, 2⟩ sampleHeap >>= rbNodes 3 ⟨0, 1, 2⟩ sampleHeap) = .ok [3, 4, 5] ∧
    ∃ found, rbSearch 3 ⟨0, 1, 2⟩ sampleCompare sampleHeap 5 = .ok found ∧
      (Tree.node false (.node true .nil 3 .nil) 4 (.node true .nil 5 .nil)).Finds
        (sampleCompare · 5) found := by
  obtain ⟨hnav, hvisit, -, hsearch⟩ := rbTree_navigates sampleHeap_wf (show _ ≤ 3 by decide)
  obtain ⟨hnext, hprev⟩ := hnav [] 3 [4, 5] rfl
  refine ⟨hnext, hprev, hvisit, hsearch ℕ sampleCompare 5 ?_⟩
  decide

end Ucore
