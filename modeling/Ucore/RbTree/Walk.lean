import Ucore.RbTree.Insert

/-!
# Neighbours in the in-order sequence

`rb_tree_successor` and `rb_tree_predecessor` go to the far end of a subtree when there is one
(`rbExtreme_spec`), and otherwise climb until they come from the other side.  In terms of the
context of a node, its predecessor is the last entry of what lies to its left and its successor the
first entry of what lies to its right.

* `rbTreeSuccessor_spec` — the successor, or `nil` if nothing lies to the right.  The climb is an
  induction on the context: as long as we come from the right, nothing of what is passed lies to the
  right of the node.
* `rbTreePredecessor_spec` — the same in the other direction.  The two loops are not mirror images
  of each other: the top node is the left child of the root sentinel, so that a climb from the right
  stops there by itself, and a climb from the left has to test for it.
-/

set_option autoImplicit false

namespace Ucore

variable {α : Type}

namespace Ctx

theorem before_eq_nil {c : Ctx α} (h : ∀ f ∈ c, f.dir = .left) : c.before = [] := by
  induction c with
  | nil => rfl
  | cons f c ih =>
    rw [Ctx.before, h f (by simp)]
    exact ih fun g hg => h g (by simp [hg])

theorem after_eq_nil {c : Ctx α} (h : ∀ f ∈ c, f.dir = .right) : c.after = [] := by
  induction c with
  | nil => rfl
  | cons f c ih =>
    rw [Ctx.after, h f (by simp)]
    exact ih fun g hg => h g (by simp [hg])

end Ctx

variable [DecidableEq α] {h : RbHeap α} {tree : RbTree α} {c : Ctx α} {t : Tree α}

/-- The far end of a subtree in direction `d`: a node without a child on that side, reached by
steps to that side only. -/
theorem rbExtreme_spec (d : Dir) (H : At h tree c t) (ht : t ≠ .nil) {fuel : ℕ}
    (hfuel : t.inorder.length ≤ fuel) :
    ∃ (c₂ : Ctx α) (red : Bool) (y : α) (s : Tree α),
      rbExtreme fuel tree d h (t.top tree.nil) = .ok y ∧ t = c₂.plug (.mk d red .nil y s) ∧
      ∀ f ∈ c₂, f.dir = d := by
  obtain ⟨y, m, hrun, ⟨c₂, t', ht', rfl, hplug, hdir, -⟩, hguard⟩ := whileLoop_total
    (c := fun y => decide ((h y).child d ≠ tree.nil)) (f := fun y => .ok ((h y).child d))
    (fun n y => ∃ (c₂ : Ctx α) (t' : Tree α), t' ≠ .nil ∧ y = t'.top tree.nil ∧ c₂.plug t' = t ∧
      (∀ f ∈ c₂, f.dir = d) ∧ t'.inorder.length = n)
    (by
      rintro n y ⟨c₂, t', ht', rfl, hplug, hdir, rfl⟩ hguard
      have Hc : At h tree (c₂ ++ c) t' := by rw [At.plug_iff, hplug]; exact H
      cases t' with
      | nil => exact absurd rfl ht'
      | node red l x r =>
        obtain ⟨a, b, hab⟩ := Tree.exists_mk d red l x r
        rw [hab] at Hc hplug hguard ⊢
        simp only [Tree.top_mk, Hc.node_eq, RbNode.of_child] at hguard ⊢
        have hlen := (Tree.inorder_mk_perm d red a x b).length_eq
        rw [List.length_cons, List.length_append] at hlen
        refine ⟨_, a.inorder.length, rfl, ⟨⟨d, red, x, b⟩ :: c₂, a, ?_, rfl, hplug, ?_, rfl⟩,
          by omega⟩
        · rintro rfl
          simp at hguard
        · intro f hf
          rcases List.mem_cons.1 hf with rfl | hf
          · rfl
          · exact hdir f hf)
    fuel t.inorder.length (t.top tree.nil) ⟨[], t, ht, rfl, rfl, by simp, rfl⟩ hfuel
  have Hc : At h tree (c₂ ++ c) t' := by rw [At.plug_iff, hplug]; exact H
  cases t' with
  | nil => exact absurd rfl ht'
  | node red l x r =>
    obtain ⟨a, b, hab⟩ := Tree.exists_mk d red l x r
    rw [hab] at Hc hplug hguard hrun
    simp only [Tree.top_mk, Hc.node_eq, RbNode.of_child] at hguard hrun
    have ha : a = .nil := by
      by_contra hne
      have hmem : a.top tree.nil ∈ a.inorder := Tree.top_mem_inorder hne
      exact (At.cons_iff (f := ⟨d, red, x, b⟩).2 Hc).ne_nil hmem (by simpa using hguard)
    subst ha
    exact ⟨c₂, red, x, b, hrun, hplug.symm, hdir⟩

/-- The successor is the first node to the right. -/
theorem rbTreeSuccessor_spec {red : Bool} {l r : Tree α} {x : α}
    (H : At h tree c (.node red l x r)) {fuel : ℕ}
    (hfuel : (c.plug (.node red l x r)).inorder.length ≤ fuel) :
    rbTreeSuccessor fuel tree h x = .ok ((r.inorder ++ c.after).headD tree.nil) := by
  have hperm := (Ctx.inorder_plug_perm c (.node red l x r)).length_eq
  rw [List.length_append, Tree.inorder_node, List.length_append, List.length_cons] at hperm
  have hx := H.sub.1
  rw [rbTreeSuccessor, hx]
  dsimp only
  by_cases hr : r = .nil
  · -- no right subtree: climb while we come from the right
    subst hr
    rw [if_neg (by simp)]
    obtain ⟨⟨u, y⟩, m, hrun, ⟨c', t', ht', hs, Hc, hafter, -⟩, hguard⟩ := whileLoop_total
      (c := fun s : α × α => decide (s.1 = (h s.2).right))
      (f := fun s => .ok (s.2, (h s.2).parent))
      (fun n s => ∃ (c' : Ctx α) (t' : Tree α), t' ≠ .nil ∧
        s = (t'.top tree.nil, c'.parent tree.root) ∧ At h tree c' t' ∧ c'.after = c.after ∧
        c'.length = n)
      (by
        rintro n s ⟨c', t', ht', rfl, Hc, hafter, rfl⟩ hguard
        rw [decide_eq_true_iff] at hguard
        have hdir := (Hc.eq_child_iff ht' .right).1 hguard
        cases c' with
        | nil => simp [Ctx.dir] at hdir
        | cons f c' =>
          obtain ⟨d, red', p, s⟩ := f
          obtain rfl : d = .right := hdir
          have Hp := At.cons_iff.1 Hc
          refine ⟨_, c'.length, rfl, ⟨c', _, ?_, ?_, Hp, hafter, rfl⟩, by simp⟩
          · simp [Frame.attach, Tree.mk]
          · rw [Ctx.parent_cons, Frame.attach, Tree.top_mk, Hc.ctx.1, RbNode.of_parent])
      fuel c.length (x, c.parent tree.root) ⟨c, _, by simp, rfl, H, rfl, rfl⟩ (by
        have h1 : c.length ≤ c.keys.length := Ctx.length_le_keys c
        omega)
    rw [hrun, Res.ok_bind, ← hafter]
    rw [Prod.mk.injEq] at hs
    obtain ⟨rfl, rfl⟩ := hs
    have hdir : c'.dir ≠ .right := by
      intro hd
      have := (Hc.eq_child_iff ht' .right).2 hd
      simp [RbNode.child] at this
      exact absurd this (by simpa using hguard)
    cases c' with
    | nil => simp [Ctx.after]
    | cons f c' =>
      obtain ⟨d, red', p, s⟩ := f
      obtain rfl : d = .left := Dir.eq_other_of_ne hdir
      have hpr : p ≠ tree.root := by
        rintro rfl
        exact (List.nodup_cons.1 Hc.keys_nodup).1 (by simp)
      simp [Ctx.after, hpr]
  · -- the leftmost node of the right subtree
    have Hr : At h tree (⟨.right, red, x, l⟩ :: c) r := At.cons_iff.2 H
    rw [if_pos (Hr.ne_nil (Tree.top_mem_inorder hr))]
    obtain ⟨c₂, red', y, s, hrun, rfl, hdir⟩ := rbExtreme_spec .left Hr hr
      (show r.inorder.length ≤ fuel by omega)
    rw [hrun, Ctx.inorder_plug, Ctx.before_eq_nil hdir]
    simp [Tree.mk]

/-- The predecessor is the last node to the left. -/
theorem rbTreePredecessor_spec {red : Bool} {l r : Tree α} {x : α}
    (H : At h tree c (.node red l x r)) {fuel : ℕ}
    (hfuel : (c.plug (.node red l x r)).inorder.length ≤ fuel) :
    rbTreePredecessor fuel tree h x = .ok ((c.before ++ l.inorder).getLastD tree.nil) := by
  have hperm := (Ctx.inorder_plug_perm c (.node red l x r)).length_eq
  rw [List.length_append, Tree.inorder_node, List.length_append, List.length_cons] at hperm
  have hx := H.sub.1
  rw [rbTreePredecessor, hx]
  dsimp only
  by_cases hl : l = .nil
  · subst hl
    rw [if_neg (by simp)]
    obtain ⟨⟨u, y⟩, m, hrun, ⟨c', t', ht', hs, Hc, hbefore, -⟩, hguard⟩ := whileLoop_total
      (c := fun s : α × α => decide (s.1 = (h s.2).left ∧ s.2 ≠ tree.root))
      (f := fun s => .ok (s.2, (h s.2).parent))
      (fun n s => ∃ (c' : Ctx α) (t' : Tree α), t' ≠ .nil ∧
        s = (t'.top tree.nil, c'.parent tree.root) ∧ At h tree c' t' ∧ c'.before = c.before ∧
        c'.length = n)
      (by
        rintro n s ⟨c', t', ht', rfl, Hc, hbefore, rfl⟩ hguard
        rw [decide_eq_true_iff] at hguard
        have hdir := (Hc.eq_child_iff ht' .left).1 hguard.1
        cases c' with
        | nil => exact absurd rfl hguard.2
        | cons f c' =>
          obtain ⟨d, red', p, s⟩ := f
          obtain rfl : d = .left := hdir
          have Hp := At.cons_iff.1 Hc
          refine ⟨_, c'.length, rfl, ⟨c', _, ?_, ?_, Hp, hbefore, rfl⟩, by simp⟩
          · simp [Frame.attach, Tree.mk]
          · rw [Ctx.parent_cons, Frame.attach, Tree.top_mk, Hc.ctx.1, RbNode.of_parent])
      fuel c.length (x, c.parent tree.root) ⟨c, _, by simp, rfl, H, rfl, rfl⟩ (by
        have h1 : c.length ≤ c.keys.length := Ctx.length_le_keys c
        omega)
    rw [hrun, Res.ok_bind, ← hbefore]
    rw [Prod.mk.injEq] at hs
    obtain ⟨rfl, rfl⟩ := hs
    rw [decide_eq_false_iff_not, not_and] at hguard
    have hleft := Hc.eq_child_iff ht' .left
    cases c' with
    | nil =>
      have hroot : t'.top tree.nil = (h tree.root).left := hleft.2 rfl
      simp [Ctx.before, hroot]
    | cons f c' =>
      obtain ⟨d, red', p, s⟩ := f
      have hpr : p ≠ tree.root := by
        rintro rfl
        exact (List.nodup_cons.1 Hc.keys_nodup).1 (by simp)
      have hnot : ¬ t'.top tree.nil = (h p).left := fun heq => hguard heq hpr
      have hd : d ≠ .left := fun hd => hnot (hleft.2 hd)
      obtain rfl : d = .right := Dir.eq_other_of_ne hd
      simp [Ctx.before, hnot]
  · have Hl : At h tree (⟨.left, red, x, r⟩ :: c) l := At.cons_iff.2 H
    rw [if_pos (Hl.ne_nil (Tree.top_mem_inorder hl))]
    obtain ⟨c₂, red', y, s, hrun, rfl, hdir⟩ := rbExtreme_spec .right Hl hl
      (show l.inorder.length ≤ fuel by omega)
    rw [hrun, Ctx.inorder_plug, Ctx.after_eq_nil hdir]
    simp [Tree.mk]

end Ucore
